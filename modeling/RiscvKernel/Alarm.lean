import RiscvKernel.DriverView

namespace RiscvKernel.Alarm

open Thread Scheduler SchedulerInv StepFrame DriverView Lib.LinkedList

variable {nthr : Nat}

def uint64Max : Nat := 2 ^ 64 - 1

def tickPeriod : Nat := 10000000 / 50

/-- The globals of timer.c with the timer registers, and the members of struct alarm. Every
thread has one alarm, named by the thread; made are the alarms that alarm_init was called
for, size is the number of alarms on sleep_list, which bounds the loops over it. -/
structure Timer where
  mtime : Nat
  mtcmp : Nat
  nextTick : Nat
  sleepList : Option Ptr
  next : Ptr → Option Ptr
  twake : Ptr → Nat
  made : Ptr → Bool
  size : Nat

/-- The condition of the alarm of a thread. The odd conditions are left to others. -/
def alarmCond (al : Ptr) : Nat := 2 * al

/-- alarm_init, alarm_reset and alarm_sleep, the last one cut where interrupts can come. -/
inductive AlarmCall
  | alarmInit
  | alarmReset
  | alarmSleep (tcnt : Nat)
  | sleepDisable
  | sleepInsert (saved : Bool)
  | sleepRestore (saved : Bool)

/-- The loop of alarm_sleep from prev on, and the insertion at the tail behind it. -/
def insertLoop (twake : Ptr → Nat) (al : Ptr) : Nat → Ptr → (Ptr → Option Ptr) → Ptr → Option Ptr
  | 0, _, next => next
  | fuel + 1, prev, next =>
      match next prev with
      | none => Function.update (Function.update next al none) prev (some al)
      | some n =>
          if twake al ≤ twake n then Function.update (Function.update next al (some n)) prev (some al)
          else insertLoop twake al fuel n next

/-- What alarm_sleep does to sleep_list. -/
def insertAlarm (al : Ptr) (s : Timer) : Timer :=
  match s.sleepList with
  | none =>
      { s with
        next := Function.update s.next al none, sleepList := some al, size := s.size + 1
        mtcmp := if s.twake al < s.nextTick then s.twake al else s.mtcmp }
  | some head =>
      if s.twake al ≤ s.twake head then
        { s with
          next := Function.update s.next al (some head), sleepList := some al, size := s.size + 1
          mtcmp := if s.twake al < s.nextTick then s.twake al else s.mtcmp }
      else { s with next := insertLoop s.twake al s.size head s.next, size := s.size + 1 }

def addTicks (twake tcnt : Nat) : Nat := if uint64Max - twake < tcnt then uint64Max else twake + tcnt

def alarmExec : AlarmCall → Ctx → Timer → Effect Timer AlarmCall
  | .alarmInit, ctx, s =>
      ⟨{ s with twake := Function.update s.twake ctx.tp s.mtime, next := Function.update s.next ctx.tp none,
                made := Function.update s.made ctx.tp true }, ctx.sie, ctx.satp, []⟩
  | .alarmReset, ctx, s => ⟨{ s with twake := Function.update s.twake ctx.tp s.mtime }, ctx.sie, ctx.satp, []⟩
  | .alarmSleep tcnt, ctx, s =>
      ⟨{ s with twake := Function.update s.twake ctx.tp (addTicks (s.twake ctx.tp) tcnt) }, ctx.sie, ctx.satp,
        if addTicks (s.twake ctx.tp) tcnt < s.mtime then [] else [.dev .sleepDisable]⟩
  | .sleepDisable, ctx, s => ⟨s, false, ctx.satp, [.dev (.sleepInsert ctx.sie)]⟩
  | .sleepInsert saved, ctx, s =>
      ⟨insertAlarm ctx.tp s, ctx.sie, ctx.satp, [.conditionWait (alarmCond ctx.tp), .dev (.sleepRestore saved)]⟩
  | .sleepRestore saved, ctx, s => ⟨s, saved, ctx.satp, []⟩

/-- The loop of timer_intr_handler: the new head, the links and the alarms it broadcast. -/
def wakeLoop (twake : Ptr → Nat) (now : Nat) : Nat → Option Ptr → (Ptr → Option Ptr) →
    Option Ptr × (Ptr → Option Ptr) × List Ptr
  | fuel + 1, some al, next =>
      if twake al ≤ now then
        let (head, next', woken) := wakeLoop twake now fuel (next al) (Function.update next al none)
        (head, next', al :: woken)
      else (some al, next, [])
  | _, head, next => (head, next, [])

def timerIntrHandler (s : Timer) : Timer × List Nat :=
  let (head, next, woken) := wakeLoop s.twake s.mtime s.size s.sleepList s.next
  let nextTick := if s.nextTick < s.mtime then (s.nextTick + tickPeriod) % 2 ^ 64 else s.nextTick
  let mtcmp :=
    match head with
    | some al => if s.twake al < nextTick then s.twake al else nextTick
    | none => nextTick
  ({ s with next, nextTick, mtcmp, sleepList := head, size := s.size - woken.length }, woken.map alarmCond)

/-- Threads with an alarm each. mtime is a 64-bit register that never goes back. -/
def timer : Client Timer AlarmCall Nat where
  exec := alarmExec
  entry
    | .alarmInit, _, _ => true
    | .alarmReset, ctx, s | .alarmSleep _, ctx, s => s.made ctx.tp
    | _, _, _ => false
  ownCond n := n % 2 = 0
  isr _ s := timerIntrHandler s
  env t s := { s with mtime := max s.mtime (t % 2 ^ 64) }
  mtag _ _ := 0

def timerDiscipline : Discipline AlarmCall where
  need
    | .sleepInsert _, b => b = false
    | _, _ => True
  out
    | .sleepInsert saved, _ | .sleepRestore saved, _ => saved
    | _, b => b
  guarded n := n % 2 = 0

def rests : AlarmCall → Prop
  | .sleepRestore _ => True
  | _ => False

theorem timer_obeys : Obeys timerDiscipline timer := by
  refine ⟨fun i ctx s hneed => ?_, fun i ctx s he => ?_, fun n hn => decide_eq_true hn⟩
  · cases i with
    | alarmInit | alarmReset => rfl
    | alarmSleep tcnt =>
        simp only [timer, alarmExec]
        split
        · rfl
        · exact ⟨trivial, .inr rfl⟩
    | sleepDisable => exact ⟨rfl, .inr rfl⟩
    | sleepInsert saved => exact ⟨fun _ _ _ => hneed, .inr ⟨trivial, .inr rfl⟩⟩
    | sleepRestore saved => rfl
  · cases i <;> trivial

theorem timer_rules : Rules timer timerDiscipline rests := by
  refine ⟨timer_obeys, fun i ctx s => ?_, fun i ctx s j hj => ?_, fun i ctx s n _ hm => ?_⟩
  · cases i with
    | alarmSleep tcnt =>
        simp only [timer, alarmExec]
        split <;> simp [devs]
    | _ => simp [timer, alarmExec, devs]
  · cases i with
    | alarmSleep tcnt =>
        simp only [timer, alarmExec] at hj
        split at hj <;> cases hj
    | sleepInsert saved =>
        obtain rfl := List.mem_singleton.mp hj
        trivial
    | _ => cases hj
  · cases i with
    | alarmSleep tcnt =>
        simp only [timer, alarmExec] at hm
        split at hm <;> cases hm
    | sleepInsert saved => simp [timer, alarmExec] at hm
    | _ => cases hm

section Lists

abbrev IsLinked (next : Ptr → Option Ptr) (head : Option Ptr) (l : List Ptr) : Prop := Linked (fun w => w) next head l

/-- The order of sleep_list. -/
abbrev Before (twake : Ptr → Nat) (a b : Ptr) : Prop := twake a ≤ twake b

variable {twake : Ptr → Nat} {next : Ptr → Option Ptr} {head : Option Ptr} {al prev : Ptr} {l : List Ptr} {fuel now : Nat}

theorem insertLoop_linked (hl : IsLinked next (some prev) (prev :: l)) (hnd : (prev :: l).Nodup) (hal : al ∉ prev :: l)
    (hf : l.length < fuel) :
    IsLinked (insertLoop twake al fuel prev next) (some prev) (prev :: l.orderedInsert (Before twake) al) ∧
      ∀ x, x ≠ al → x ∉ prev :: l → insertLoop twake al fuel prev next x = next x := by
  induction l generalizing prev fuel with
  | nil =>
      obtain ⟨fuel, rfl⟩ := Nat.exists_eq_add_of_lt hf
      have hp : al ≠ prev := by simpa using hal
      have hnone : next prev = none := hl.2
      simp only [insertLoop, hnone]
      refine ⟨⟨rfl, ?_, ?_⟩, fun x hx hx' => ?_⟩
      · simp
      · simp [Linked, hp]
      · have hx'' : x ≠ prev := by simpa using hx'
        simp [hx, hx'']
  | cons n l ih =>
      obtain ⟨fuel, rfl⟩ := Nat.exists_eq_add_of_lt (Nat.lt_of_le_of_lt (Nat.zero_le _) hf)
      rw [Nat.zero_add] at hf ⊢
      obtain ⟨-, hnext, hlinks⟩ := hl
      have hnext' : next prev = some n := hnext
      rw [List.mem_cons, not_or] at hal
      obtain ⟨hp, hnd'⟩ := List.nodup_cons.mp hnd
      simp only [insertLoop, hnext']
      by_cases hle : twake al ≤ twake n
      · rw [if_pos hle, List.orderedInsert_cons, if_pos hle]
        refine ⟨⟨rfl, by simp, ?_⟩, fun x hx hx' => ?_⟩
        · have hu : IsLinked (Function.update (Function.update next al (some n)) prev (some al)) (some n) (n :: l) :=
            Linked.update (Linked.update ⟨rfl, hlinks⟩ hal.2) hp
          simpa [Linked, hal.1] using hu
        · rw [List.mem_cons, not_or] at hx'
          simp [hx, hx'.1]
      · rw [if_neg hle, List.orderedInsert_cons, if_neg hle]
        obtain ⟨hl', hframe⟩ := ih ⟨rfl, hlinks⟩ hnd' hal.2 (Nat.lt_of_succ_lt_succ hf)
        refine ⟨⟨rfl, ?_⟩, fun x hx hx' => hframe x hx fun hm => hx' (List.mem_cons_of_mem _ hm)⟩
        rw [hframe prev (Ne.symm hal.1) hp, hnext']
        exact hl'

theorem insertAlarm_linked {s : Timer} (hl : IsLinked s.next s.sleepList l) (hnd : l.Nodup) (hal : al ∉ l)
    (hsize : s.size = l.length) :
    IsLinked (insertAlarm al s).next (insertAlarm al s).sleepList (l.orderedInsert (Before s.twake) al) := by
  cases l with
  | nil =>
      have hnone : s.sleepList = none := hl
      simp only [insertAlarm, hnone]
      exact ⟨rfl, by simp [Linked]⟩
  | cons head l =>
      have hsome : s.sleepList = some head := hl.1
      simp only [insertAlarm, hsome]
      by_cases hle : s.twake al ≤ s.twake head
      · rw [if_pos hle, List.orderedInsert_cons, if_pos hle]
        rw [hsome] at hl
        refine ⟨rfl, ?_⟩
        simp only [Function.update_self]
        exact Linked.update hl hal
      · rw [if_neg hle, List.orderedInsert_cons, if_neg hle]
        rw [hsome] at hl
        exact (insertLoop_linked hl hnd hal (by rw [hsize]; exact Nat.lt_succ_self _)).1

theorem insertAlarm_same (al : Ptr) (s : Timer) :
    (insertAlarm al s).twake = s.twake ∧ (insertAlarm al s).mtime = s.mtime ∧ (insertAlarm al s).size = s.size + 1 := by
  unfold insertAlarm
  split
  · exact ⟨rfl, rfl, rfl⟩
  · split <;> exact ⟨rfl, rfl, rfl⟩

/-- The handler takes the alarms that are due off the front of the list. -/
theorem wakeLoop_linked (twake : Ptr → Nat) (now : Nat) (hl : IsLinked next head l) (hnd : l.Nodup) (hf : l.length ≤ fuel) :
    IsLinked (wakeLoop twake now fuel head next).2.1 (wakeLoop twake now fuel head next).1
        (l.dropWhile fun a => twake a ≤ now) ∧
      (wakeLoop twake now fuel head next).2.2 = l.takeWhile fun a => twake a ≤ now := by
  induction l generalizing head next fuel with
  | nil =>
      obtain rfl : head = none := hl
      cases fuel <;> exact ⟨rfl, rfl⟩
  | cons a l ih =>
      obtain ⟨rfl, hlinks⟩ := hl
      obtain ⟨fuel, rfl⟩ := Nat.exists_eq_add_of_le' (Nat.le_trans (Nat.succ_le_succ (Nat.zero_le _)) hf)
      obtain ⟨ha, hnd'⟩ := List.nodup_cons.mp hnd
      by_cases hle : twake a ≤ now
      · obtain ⟨h₁, h₂⟩ := ih (hlinks.update ha) hnd' (Nat.le_of_succ_le_succ hf)
        simp only [wakeLoop, hle, if_true, List.dropWhile_cons, List.takeWhile_cons, decide_true]
        exact ⟨h₁, by rw [h₂]⟩
      · simp only [wakeLoop, hle, if_false, List.dropWhile_cons, List.takeWhile_cons, decide_false]
        exact ⟨⟨rfl, hlinks⟩, rfl⟩

theorem mem_takeWhile_iff (hs : l.Pairwise (Before twake)) {a : Ptr} :
    a ∈ l.takeWhile (fun a => twake a ≤ now) ↔ a ∈ l ∧ twake a ≤ now := by
  induction l with
  | nil => simp
  | cons b l ih =>
      obtain ⟨hb, hs'⟩ := List.pairwise_cons.mp hs
      by_cases hle : twake b ≤ now
      · simp only [List.takeWhile_cons, hle, decide_true, if_true, List.mem_cons, ih hs']
        constructor
        · rintro (rfl | ⟨hm, hle'⟩)
          · exact ⟨.inl rfl, hle⟩
          · exact ⟨.inr hm, hle'⟩
        · rintro ⟨rfl | hm, hle'⟩
          · exact .inl rfl
          · exact .inr ⟨hm, hle'⟩
      · simp only [List.takeWhile_cons, hle, decide_false, List.mem_cons]
        refine ⟨nofun, ?_⟩
        rintro ⟨rfl | hm, hle'⟩
        · exact absurd hle' hle
        · exact absurd (Nat.le_trans (hb a hm) hle') hle

theorem mem_dropWhile_iff (hs : l.Pairwise (Before twake)) (hnd : l.Nodup) {a : Ptr} :
    a ∈ l.dropWhile (fun a => twake a ≤ now) ↔ a ∈ l ∧ ¬ twake a ≤ now := by
  have hsplit : l.takeWhile (fun a => twake a ≤ now) ++ l.dropWhile (fun a => twake a ≤ now) = l := List.takeWhile_append_dropWhile
  rw [← hsplit] at hnd
  have hdisj := (List.nodup_append.mp hnd).2.2
  constructor
  · intro hm
    have hml : a ∈ l := by
      rw [← hsplit]
      exact List.mem_append_right _ hm
    exact ⟨hml, fun hle => hdisj a ((mem_takeWhile_iff hs).mpr ⟨hml, hle⟩) a hm rfl⟩
  · rintro ⟨hm, hle⟩
    rw [← hsplit] at hm
    refine (List.mem_append.mp hm).resolve_left fun hm' => hle ?_
    exact ((mem_takeWhile_iff hs).mp hm').2

theorem sorted_orderedInsert (hs : l.Pairwise (Before twake)) (al : Ptr) :
    (l.orderedInsert (Before twake) al).Pairwise (Before twake) := by
  have : Std.Total (Before twake) := ⟨fun a b => Nat.le_total _ _⟩
  have : IsTrans Ptr (Before twake) := ⟨fun _ _ _ => Nat.le_trans⟩
  exact hs.orderedInsert al l

end Lists

/-- What alarm_init, alarm_reset, alarm_sleep and timer_intr_handler keep. -/
structure AlarmInv (v : View Timer AlarmCall) (l : List Ptr) : Prop where
  linked : IsLinked v.dev.next v.dev.sleepList l
  sorted : l.Pairwise (Before v.dev.twake)
  nodup : l.Nodup
  size : v.dev.size = l.length
  mem : ∀ a, a ∈ l ↔ v.waited (alarmCond a) a
  own : ∀ a p, v.waited (alarmCond a) p → p = a
  sleeper : ∀ a, v.waited (alarmCond a) a → ∃ saved, v.job a = some (.sleepRestore saved)
  resting : ∀ p, p ≠ v.tp → Resting rests (v.job p)
  due : ∀ p saved, v.job p = some (.sleepRestore saved) → p ∈ l ∨ v.dev.twake p ≤ v.dev.mtime

section Moves

variable {v v' : View Timer AlarmCall} {l : List Ptr} {i : AlarmCall} {ctx : Ctx}

theorem alarmCond_inj {a b : Ptr} (h : alarmCond a = alarmCond b) : a = b :=
  Nat.eq_of_mul_eq_mul_left Nat.two_pos h

theorem AlarmInv.not_mem (h : AlarmInv v l) (hjob : v.job v.tp = some i) (hi : ∀ saved, i ≠ .sleepRestore saved) :
    v.tp ∉ l := fun hm => by
  obtain ⟨saved, hs⟩ := h.sleeper v.tp ((h.mem v.tp).mp hm)
  rw [hjob] at hs
  exact hi saved (Option.some.inj hs)

/-- A step that changes only the alarm of the current thread, which is not on the list. -/
theorem AlarmInv.keep (h : AlarmInv v l) (htp : v.tp ∉ l) {s : Timer} {j : Option AlarmCall} {w : Nat → Ptr → Prop}
    (hlist : s.sleepList = v.dev.sleepList) (hnext : ∀ a ∈ l, s.next a = v.dev.next a)
    (htwake : ∀ a, a ≠ v.tp → s.twake a = v.dev.twake a) (hmtime : s.mtime = v.dev.mtime) (hsize : s.size = v.dev.size)
    (hj : ∀ saved, j ≠ some (.sleepRestore saved)) (hw : ∀ n p, w n p ↔ v.waited n p) :
    AlarmInv ⟨s, v.tp, Function.update v.job v.tp j, w⟩ l := by
  have htw : ∀ a ∈ l, s.twake a = v.dev.twake a := fun a ha => htwake a (ne_of_mem_of_not_mem ha htp)
  refine ⟨?_, ?_, h.nodup, hsize.trans h.size, fun a => (h.mem a).trans (hw _ _).symm,
    fun a p hp => h.own a p ((hw _ _).mp hp), fun a ha => ?_, fun p hp => ?_, fun p saved hp => ?_⟩
  · rw [hlist]
    exact h.linked.congr hnext
  · refine h.sorted.imp_of_mem fun {a b} ha hb hab => ?_
    rw [Before, htw a ha, htw b hb]
    exact hab
  · have ha' := (hw _ _).mp ha
    have hne : a ≠ v.tp := ne_of_mem_of_not_mem ((h.mem a).mpr ha') htp
    simp only [Function.update_of_ne hne]
    exact h.sleeper a ha'
  · have hp' : p ≠ v.tp := hp
    simp only [Function.update_of_ne hp']
    exact h.resting p hp'
  · rcases eq_or_ne p v.tp with rfl | hne
    · simp only [Function.update_self] at hp
      exact absurd hp (hj saved)
    · simp only [Function.update_of_ne hne] at hp
      rw [htwake p hne, hmtime]
      exact h.due p saved hp

theorem AlarmInv.insert (h : AlarmInv v l) (htp : v.tp ∉ l) (saved : Bool) {w : Nat → Ptr → Prop}
    (hw : ∀ n p, w n p ↔ v.waited n p ∨ p = v.tp ∧ n = alarmCond v.tp) :
    AlarmInv ⟨insertAlarm v.tp v.dev, v.tp, Function.update v.job v.tp (some (.sleepRestore saved)), w⟩
      (l.orderedInsert (Before v.dev.twake) v.tp) := by
  obtain ⟨htwake, hmtime, hsize⟩ := insertAlarm_same v.tp v.dev
  have hperm := List.perm_orderedInsert (Before v.dev.twake) v.tp l
  have hmem : ∀ a, a ∈ l.orderedInsert (Before v.dev.twake) v.tp ↔ a = v.tp ∨ a ∈ l := fun a => by
    rw [hperm.mem_iff, List.mem_cons]
  refine ⟨insertAlarm_linked h.linked h.nodup htp h.size, ?_, hperm.nodup_iff.mpr (List.nodup_cons.mpr ⟨htp, h.nodup⟩), ?_,
    fun a => ?_, fun a p hp => ?_, fun a ha => ?_, fun p hp => ?_, fun p saved' hp => ?_⟩
  · simp only [htwake]
    exact sorted_orderedInsert h.sorted v.tp
  · simp only [hsize, h.size, hperm.length_eq, List.length_cons]
  · refine (hmem a).trans (Iff.trans ?_ (hw (alarmCond a) a).symm)
    rw [h.mem, or_comm]
    exact or_congr_right ⟨fun he => ⟨he, by rw [he]⟩, And.left⟩
  · rcases (hw _ _).mp hp with hp | ⟨rfl, he⟩
    · exact h.own a p hp
    · exact (alarmCond_inj he).symm
  · rcases eq_or_ne a v.tp with rfl | hne
    · exact ⟨saved, Function.update_self ..⟩
    · simp only [Function.update_of_ne hne]
      exact h.sleeper a (((hw _ _).mp ha).resolve_right fun he => hne he.1)
  · have hp' : p ≠ v.tp := hp
    simp only [Function.update_of_ne hp']
    exact h.resting p hp'
  · rw [hmem]
    rcases eq_or_ne p v.tp with rfl | hne
    · exact .inl (.inl rfl)
    · simp only [Function.update_of_ne hne] at hp
      simp only [htwake, hmtime]
      exact (h.due p saved' hp).imp_left .inr

theorem AlarmInv.exec (h : AlarmInv v l) (hjob : v.job v.tp = some i) (htp : ctx.tp = v.tp)
    (hawake : ∀ n, ¬ v.waited n v.tp) : ∃ l', AlarmInv (v.exec timer timerDiscipline i ctx) l' := by
  have hw : (∀ n, (timer.exec i ctx v.dev).push.head? ≠ some (.conditionWait n)) →
      ∀ n p, (v.exec timer timerDiscipline i ctx).waited n p ↔ v.waited n p := fun hp n p =>
    or_iff_left fun hq => hp n hq.2.2
  cases i with
  | alarmInit =>
      have hm := h.not_mem hjob (by simp)
      refine ⟨l, h.keep hm rfl (fun a ha => ?_) (fun a ha => ?_) rfl rfl nofun (hw (by simp [timer, alarmExec]))⟩
      · exact Function.update_of_ne (htp ▸ ne_of_mem_of_not_mem ha hm) _ _
      · exact Function.update_of_ne (htp ▸ ha) _ _
  | alarmReset =>
      have hm := h.not_mem hjob (by simp)
      exact ⟨l, h.keep hm rfl (fun _ _ => rfl) (fun a ha => Function.update_of_ne (htp ▸ ha) _ _) rfl rfl nofun
        (hw (by simp [timer, alarmExec]))⟩
  | alarmSleep tcnt =>
      have hm := h.not_mem hjob (by simp)
      refine ⟨l, h.keep hm rfl (fun _ _ => rfl) (fun a ha => Function.update_of_ne (htp ▸ ha) _ _) rfl rfl ?_ (hw ?_)⟩
      · simp only [timer, alarmExec]
        split <;> exact nofun
      · simp only [timer, alarmExec]
        split <;> simp
  | sleepDisable =>
      have hm := h.not_mem hjob (by simp)
      exact ⟨l, h.keep hm rfl (fun _ _ => rfl) (fun _ _ => rfl) rfl rfl nofun (hw (by simp [timer, alarmExec]))⟩
  | sleepInsert saved =>
      have hm := h.not_mem hjob (by simp)
      have hdev : (v.exec timer timerDiscipline (.sleepInsert saved) ctx).dev = insertAlarm v.tp v.dev := by
        rw [← htp]
        rfl
      have hins := h.insert hm saved (w := (v.exec timer timerDiscipline (.sleepInsert saved) ctx).waited) fun n p => ?_
      · rw [← hdev] at hins
        exact ⟨_, hins⟩
      · refine or_congr_right ?_
        simp only [timer, alarmExec, htp, List.head?_cons, Option.some.injEq, Call.conditionWait.injEq]
        constructor
        · rintro ⟨-, hp, he⟩
          exact ⟨hp, he.symm⟩
        · rintro ⟨hp, rfl⟩
          exact ⟨Nat.mul_mod_right 2 v.tp, hp, rfl⟩
  | sleepRestore saved =>
      have hm : v.tp ∉ l := fun hm => hawake _ ((h.mem v.tp).mp hm)
      exact ⟨l, h.keep hm rfl (fun _ _ => rfl) (fun _ _ => rfl) rfl rfl nofun (hw (by simp [timer, alarmExec]))⟩

theorem timerIntrHandler_spec {s : Timer} {l : List Ptr} (hl : IsLinked s.next s.sleepList l) (hnd : l.Nodup)
    (hsize : s.size = l.length) :
    IsLinked (timerIntrHandler s).1.next (timerIntrHandler s).1.sleepList (l.dropWhile fun a => s.twake a ≤ s.mtime) ∧
      (timerIntrHandler s).2 = (l.takeWhile fun a => s.twake a ≤ s.mtime).map alarmCond ∧
      (timerIntrHandler s).1.size = (l.dropWhile fun a => s.twake a ≤ s.mtime).length := by
  obtain ⟨h₁, h₂⟩ := wakeLoop_linked s.twake s.mtime hl hnd (Nat.le_of_eq hsize.symm)
  refine ⟨h₁, congrArg (List.map alarmCond) h₂, ?_⟩
  have hlen := congrArg List.length (List.takeWhile_append_dropWhile (p := fun a => decide (s.twake a ≤ s.mtime)) (l := l))
  rw [List.length_append] at hlen
  show s.size - (wakeLoop s.twake s.mtime s.size s.sleepList s.next).2.2.length = _
  rw [h₂, hsize]
  omega

theorem mem_handler_iff {s : Timer} {l : List Ptr} (hl : IsLinked s.next s.sleepList l) (hnd : l.Nodup)
    (hsize : s.size = l.length) (hs : l.Pairwise (Before s.twake)) {a : Ptr} (ha : a ∈ l) :
    alarmCond a ∈ (timerIntrHandler s).2 ↔ s.twake a ≤ s.mtime := by
  rw [(timerIntrHandler_spec hl hnd hsize).2.1, List.mem_map]
  constructor
  · rintro ⟨b, hb, he⟩
    obtain rfl := alarmCond_inj he
    exact ((mem_takeWhile_iff hs).mp hb).2
  · intro hle
    exact ⟨a, (mem_takeWhile_iff hs).mpr ⟨ha, hle⟩, rfl⟩

theorem AlarmInv.isr (h : AlarmInv v l) :
    AlarmInv { v with dev := (timerIntrHandler v.dev).1, waited := fun n p => v.waited n p ∧ n ∉ (timerIntrHandler v.dev).2 }
      (l.dropWhile fun a => v.dev.twake a ≤ v.dev.mtime) := by
  obtain ⟨hlinked, -, hsize⟩ := timerIntrHandler_spec h.linked h.nodup h.size
  have hsub := List.dropWhile_sublist (l := l) fun a => decide (v.dev.twake a ≤ v.dev.mtime)
  refine ⟨hlinked, h.sorted.sublist hsub, h.nodup.sublist hsub, hsize, fun a => ?_, fun a p hp => h.own a p hp.1,
    fun a ha => h.sleeper a ha.1, h.resting, fun p saved hp => ?_⟩
  · rw [mem_dropWhile_iff h.sorted h.nodup]
    constructor
    · rintro ⟨ha, hle⟩
      exact ⟨(h.mem a).mp ha, fun hm => hle ((mem_handler_iff h.linked h.nodup h.size h.sorted ha).mp hm)⟩
    · rintro ⟨ha, hm⟩
      have ha' := (h.mem a).mpr ha
      exact ⟨ha', fun hle => hm ((mem_handler_iff h.linked h.nodup h.size h.sorted ha').mpr hle)⟩
  · rcases h.due p saved hp with hm | hle
    · rw [mem_dropWhile_iff h.sorted h.nodup]
      by_cases hle : v.dev.twake p ≤ v.dev.mtime
      · exact .inr hle
      · exact .inl ⟨hm, hle⟩
    · exact .inr hle

theorem AlarmInv.move (h : AlarmInv v l) (hm : Move timer timerDiscipline rests v v') : ∃ l', AlarmInv v' l' := by
  cases hm with
  | exec i ctx job tp need awake => exact h.exec job tp awake
  | switch next old new =>
      refine ⟨l, h.linked, h.sorted, h.nodup, h.size, h.mem, h.own, h.sleeper, fun p hp => ?_, h.due⟩
      rcases eq_or_ne p v.tp with rfl | hne
      · exact old
      · exact h.resting p hne
  | entry i ctx job tp entry =>
      refine ⟨l, h.keep (fun hm => ?_) rfl (fun _ _ => rfl) (fun _ _ => rfl) rfl rfl (fun saved he => ?_) fun _ _ => Iff.rfl⟩
      · obtain ⟨saved, hs⟩ := h.sleeper v.tp ((h.mem v.tp).mp hm)
        rw [job] at hs
        cases hs
      · cases he
        cases entry
  | isr e => exact ⟨_, h.isr⟩
  | env t =>
      refine ⟨l, h.linked, h.sorted, h.nodup, h.size, h.mem, h.own, h.sleeper, h.resting, fun p saved hp => ?_⟩
      exact (h.due p saved hp).imp_right fun hle => Nat.le_trans hle (Nat.le_max_left _ _)

end Moves

/-- The thread is asleep in alarm_sleep. -/
def Asleep (k : Kernel Timer AlarmCall) (p : Ptr) : Prop := Awaits k (alarmCond p) p

/-- sleep_list holds the sleepers in the order of their wake-up times, and a step wakes a
sleeper if and only if it is a run of timer_intr_handler and the time has come. alarm_init
finds the list that condition_init clears empty, and nobody returns too early. -/
structure AlarmSafe (nthr : Nat) (k : Kernel Timer AlarmCall) : Prop where
  list : ∃ l, IsLinked k.dev.next k.dev.sleepList l ∧ l.Pairwise (fun a b => k.dev.twake a ≤ k.dev.twake b) ∧ l.Nodup ∧
    ∀ a, a ∈ l ↔ Asleep k a
  wake : ∀ l k', step timer nthr k l = .ok k' → ∀ p, Asleep k p →
    (¬ Asleep k' p ↔ (∃ t, l = .isr t) ∧ k.sie = true ∧ k.dev.twake p ≤ k.dev.mtime)
  init : ∀ rest, k.code k.tp = .call (.dev .alarmInit) :: rest → tlempty (k.waitList (.ext (alarmCond k.tp))) = true
  late : ∀ saved rest, k.code k.tp = .call (.dev (.sleepRestore saved)) :: rest → k.dev.twake k.tp ≤ k.dev.mtime

theorem alarmSafe_of_inv {k : Kernel Timer AlarmCall} (hd : Driven nthr timerDiscipline rests k) {l : List Ptr}
    (h : AlarmInv (view timerDiscipline k) l) : AlarmSafe nthr k := by
  have hguard : ∀ p, timerDiscipline.guarded (alarmCond p) := fun p => Nat.mul_mod_right 2 p
  have hmem : ∀ a, a ∈ l ↔ Asleep k a := fun a => (h.mem a).trans (and_iff_right (hguard a))
  refine ⟨⟨l, h.linked, h.sorted, h.nodup, hmem⟩, fun lb k' hs p hp => ?_, fun rest hcode => ?_, fun saved rest hcode => ?_⟩
  · rw [Asleep, hd.awaits_step hs (hguard p) hp, not_not]
    have hiff := mem_handler_iff h.linked h.nodup h.size h.sorted ((hmem p).mpr hp)
    constructor
    · rintro ⟨t, rfl, hsie, hm⟩
      exact ⟨⟨t, rfl⟩, hsie, hiff.mp hm⟩
    · rintro ⟨⟨t, rfl⟩, hsie, hle⟩
      exact ⟨t, rfl, hsie, hiff.mpr hle⟩
  · by_contra he
    obtain ⟨p, hp⟩ := hd.waited_of_waitList (hguard k.tp) (by simpa using he)
    obtain rfl := h.own k.tp p hp
    obtain ⟨saved, hs⟩ := h.sleeper k.tp hp
    simp [view, hcode] at hs
  · refine (h.due k.tp saved (by simp [view, hcode])).resolve_left fun hm => ?_
    rcases (hmem k.tp).mp hm with hw | ⟨-, q, hq, ha⟩
    · obtain ⟨ready, waits, hi⟩ := hd.typed.inv
      have hcur := hi.current
      rw [hcode] at hcur
      cases hw.1.symm.trans hcur.1
    · rw [hcode] at hq
      obtain rfl := Option.some.inj hq
      rcases ha with ha | ha <;> cases ha

/-- After timer_init, with mtime and the alarms as they may be. -/
def timerInit (twake : Ptr → Nat) : Timer where
  mtime := 0
  mtcmp := tickPeriod
  nextTick := 0
  sleepList := none
  next := fun _ => none
  twake
  made := fun _ => false
  size := 0

theorem alarmInv_timerInit (twake : Ptr → Nat) : AlarmInv ⟨timerInit twake, mainThread, fun _ => none, fun _ _ => False⟩ [] :=
  ⟨rfl, .nil, List.nodup_nil, rfl, fun _ => ⟨nofun, False.elim⟩, fun _ _ => False.elim, fun _ => False.elim,
    fun _ _ => nofun, nofun⟩

/-- Every interleaving of alarm_init, alarm_reset and alarm_sleep calls with runs of
timer_intr_handler keeps sleep_list right. -/
theorem run_alarmSafe (hn : 2 ≤ nthr) (twake : Ptr → Nat) (satp : Nat) (sie : Bool) (ls : List (Label AlarmCall Nat))
    (k : Kernel Timer AlarmCall) (hr : run timer nthr (threadInit nthr (timerInit twake) satp sie) ls = .ok k) :
    AlarmSafe nthr k := by
  have h₀ : ∃ l, AlarmInv (view timerDiscipline (threadInit nthr (timerInit twake) satp sie)) l := by
    rw [view_threadInit]
    exact ⟨[], alarmInv_timerInit twake⟩
  obtain ⟨hd, l, h⟩ := (driven_threadInit hn timerDiscipline rests (timerInit twake) satp sie).run timer_rules
    (P := fun v => ∃ l, AlarmInv v l) (fun _ _ ⟨_, h⟩ hm => h.move hm) h₀ hr
  exact alarmSafe_of_inv hd h

/-- Two threads set alarms of 9 and 5 ticks; the handler runs at time 6. -/
def twoSleepers : List (Label AlarmCall Nat) :=
  (.call (.threadSpawn 0x80400000) :: List.replicate 4 .run : List (Label AlarmCall Nat)) ++
    (.call (.dev .alarmInit) :: List.replicate 1 .run : List (Label AlarmCall Nat)) ++
    (.call (.dev (.alarmSleep 9)) :: List.replicate 30 .run : List (Label AlarmCall Nat)) ++
    (.call (.dev .alarmInit) :: List.replicate 1 .run : List (Label AlarmCall Nat)) ++
    (.call (.dev (.alarmSleep 5)) :: List.replicate 15 .run : List (Label AlarmCall Nat)) ++ [.env 6, .isr 0]

theorem run_alarmSafe_twoSleepers : ∃ k,
    run timer 16 (threadInit 16 (timerInit fun _ => 0) 0 true) twoSleepers = .ok k ∧ k.dev.sleepList = some 0 ∧
      k.dev.size = 1 ∧ AlarmSafe 16 k := by
  have hview : ((run timer 16 (threadInit 16 (timerInit fun _ => 0) 0 true) twoSleepers).toOption.map fun k =>
      (k.dev.sleepList, k.dev.size)) = some (some 0, 1) := by decide +kernel
  cases hr : run timer 16 (threadInit 16 (timerInit fun _ => 0) 0 true) twoSleepers with
  | error s =>
      rw [hr] at hview
      cases hview
  | ok k =>
      rw [hr] at hview
      obtain ⟨h₁, h₂⟩ := Prod.mk.inj (Option.some.inj hview)
      exact ⟨k, rfl, h₁, h₂, run_alarmSafe (by decide) (fun _ => 0) 0 true twoSleepers k hr⟩

end RiscvKernel.Alarm
