import RiscvKernel.StepFrame

namespace RiscvKernel.LockExclusion

open Thread Scheduler SchedulerInv StepFrame

variable {nthr : Nat}

/-- A struct lock, with the threads that are between the return of their lock_acquire and
their next lock_release. -/
structure LockState where
  tid : Int
  inside : List Ptr

/-- lock_acquire up to its condition_wait, lock_acquire after it, lock_release. -/
inductive LockCall
  | lockAcquire
  | woken
  | lockRelease

def lockInit : LockState := ⟨-1, []⟩

def take (ctx : Ctx) (s : LockState) : LockState := ⟨ctx.tid, ctx.tp :: s.inside⟩

def lockExec : LockCall → Ctx → LockState → Effect LockState LockCall
  | .lockAcquire, ctx, s =>
      if s.tid = -1 then ⟨take ctx s, ctx.sie, ctx.satp, []⟩
      else ⟨s, ctx.sie, ctx.satp, [.conditionWait 0, .dev .woken]⟩
  | .woken, ctx, s => ⟨take ctx s, ctx.sie, ctx.satp, []⟩
  | .lockRelease, ctx, s => ⟨⟨-1, s.inside.erase ctx.tp⟩, ctx.sie, ctx.satp, [.conditionBroadcast 0]⟩

/-- Threads that take one lock, work and give it back. The condition of the lock is 0; on
all others they may wait for each other and for interrupts. -/
def lockUsers : Client LockState LockCall (List Nat) where
  exec := lockExec
  entry
    | .lockAcquire, ctx, s => ctx.tp ∉ s.inside
    | .woken, _, _ => false
    | .lockRelease, ctx, s => ctx.tp ∈ s.inside
  ownCond n := n = 0
  isr conds s := (s, conds.filter (· ≠ 0))
  env _ s := s
  mtag _ _ := 0

def locks : Discipline LockCall where
  need _ _ := True
  out _ b := b
  guarded _ := False

theorem locks_obeys : Obeys locks lockUsers := by
  refine ⟨fun i ctx s _ => ?_, fun _ _ _ _ => trivial, fun _ h => h.elim⟩
  cases i with
  | lockAcquire =>
      simp only [lockUsers, lockExec]
      split
      · rfl
      · exact ⟨fun _ _ h => h.elim, .inr ⟨trivial, .inr rfl⟩⟩
  | woken => rfl
  | lockRelease => exact ⟨fun _ _ h => h, .inr rfl⟩

/-- At most one thread is inside, and the lock names it. -/
def Exclusive (k : Kernel LockState LockCall) : Prop :=
  k.dev.inside.length ≤ 1 ∧ ∀ p ∈ k.dev.inside, k.dev.tid = k.id p

/-- The step returns from the condition_wait in lock_acquire. -/
def comesBack (k : Kernel LockState LockCall) : Label LockCall (List Nat) → Bool
  | .run =>
      match k.code k.tp with
      | .call (.dev .woken) :: _ => true
      | _ => false
  | _ => false

/-- Along a run, whenever a thread comes out of the condition_wait in lock_acquire, nobody
has the lock. -/
def wokenFree (nthr : Nat) : Kernel LockState LockCall → List (Label LockCall (List Nat)) → Bool :=
  along lockUsers nthr fun k l => !comesBack k l || k.dev.tid = -1

abbrev releasing : Pc LockCall := .call (.dev .lockRelease)

structure Held (nthr : Nat) (k : Kernel LockState LockCall) : Prop where
  typed : Typed nthr locks k
  holder : k.dev = lockInit ∨ ∃ p, k.dev = ⟨k.id p, [p]⟩ ∧ p < k.brk
  release : ∀ p, releasing ∈ k.code p → p = k.tp ∧ k.code p = [releasing] ∧ p ∈ k.dev.inside

theorem Held.exclusive {k : Kernel LockState LockCall} (h : Held nthr k) : Exclusive k := by
  rcases h.holder with he | ⟨p, he, -⟩
  · simp [Exclusive, he, lockInit]
  · simp [Exclusive, he]

section Steps

variable {k k' : Kernel LockState LockCall} {l : Label LockCall (List Nat)} {pc : Pc LockCall} {rest : List (Pc LockCall)}

theorem Held.not_releasing (h : Held nthr k) (hcode : k.code k.tp = pc :: rest) : releasing ∉ rest := fun hm => by
  have := (h.release k.tp (by rw [hcode]; exact List.mem_cons_of_mem _ hm)).2.1
  rw [hcode] at this
  rw [(List.cons.inj this).2] at hm
  cases hm

theorem becomes_not_releasing {new : List (Pc LockCall)} (h : Becomes lockUsers k pc new) : releasing ∉ new := by
  by_cases hdev : ∃ i, pc = .call (.dev i)
  · obtain ⟨i, rfl⟩ := hdev
    rw [show new = (lockUsers.exec i k.ctx k.dev).push.map Pc.call from h]
    cases i with
    | lockAcquire =>
        simp only [lockUsers, lockExec]
        split <;> simp
    | woken => simp [lockUsers, lockExec]
    | lockRelease => simp [lockUsers, lockExec]
  · by_cases hw : ∃ n, pc = .call (.conditionWait n)
    · obtain ⟨n, rfl⟩ := hw
      rw [show new = [.waitEnter (.ext n)] from h]
      simp
    · exact fun hm => by cases h.quiet (fun i hi => hdev ⟨i, hi⟩) (fun n hn => hw ⟨n, hn⟩) _ hm

/-- After a step of the current thread nobody has called lock_release. -/
theorem Held.release_run (h : Held nthr k) (hcode : k.code k.tp = pc :: rest) (hf : Frame lockUsers k k' pc rest) (p : Ptr) :
    releasing ∉ k'.code p := by
  rcases eq_or_ne p k.tp with rfl | hne
  · cases hf.flow with
    | stays new tp code' becomes ends =>
        rw [code', List.mem_append, not_or]
        exact ⟨becomes_not_releasing becomes, h.not_releasing hcode⟩
    | switches saved pc_eq ne code' =>
        rw [code', List.mem_cons, not_or]
        exact ⟨nofun, h.not_releasing hcode⟩
  · rw [hf.code p hne]
    exact fun hm => hne (h.release p hm).1

theorem Held.holder_run (h : Held nthr k) (hcode : k.code k.tp = pc :: rest) (hf : Frame lockUsers k k' pc rest)
    (hfree : pc = .call (.dev .woken) → k.dev.tid = -1) :
    k'.dev = lockInit ∨ ∃ p, k'.dev = ⟨k'.id p, [p]⟩ ∧ p < k'.brk := by
  have hkeep : k'.dev = k.dev → k'.dev = lockInit ∨ ∃ p, k'.dev = ⟨k'.id p, [p]⟩ ∧ p < k'.brk := fun he => by
    rw [he]
    refine h.holder.imp_right ?_
    rintro ⟨p, hp, hlt⟩
    exact ⟨p, by rw [hf.id p hlt]; exact hp, Nat.lt_of_lt_of_le hlt hf.brk⟩
  have htake : k.dev.tid = -1 → k'.dev = take k.ctx k.dev → ∃ p, k'.dev = ⟨k'.id p, [p]⟩ ∧ p < k'.brk := fun ht he => by
    have hnil : k.dev.inside = [] := by
      rcases h.holder with hp | ⟨p, hp, -⟩
      · rw [hp]
        rfl
      · rw [hp] at ht
        have ht' : ((k.id p : Nat) : Int) = -1 := ht
        omega
    refine ⟨k.tp, ?_, Nat.lt_of_lt_of_le h.typed.tp_lt hf.brk⟩
    rw [he, take, hnil, hf.id _ h.typed.tp_lt]
    rfl
  have hdev := hf.dev
  unfold devAfter at hdev
  split at hdev
  · rename_i i
    cases i with
    | lockAcquire =>
        simp only [lockUsers, lockExec] at hdev
        split at hdev
        · exact .inr (htake ‹_› hdev)
        · exact hkeep hdev
    | woken => exact .inr (htake (hfree rfl) hdev)
    | lockRelease =>
        refine .inl ?_
        obtain ⟨-, -, hm⟩ := h.release k.tp (by rw [hcode]; exact List.mem_cons_self)
        rcases h.holder with hp | ⟨p, hp, -⟩
        · rw [hp] at hm
          cases hm
        · rw [hp] at hm
          obtain rfl := List.mem_singleton.mp hm
          rw [hdev]
          simp [lockUsers, lockExec, hp, Kernel.ctx, lockInit]
  · exact hkeep hdev

theorem Held.step (h : Held nthr k) (hs : step lockUsers nthr k l = .ok k')
    (hfree : comesBack k l = true → k.dev.tid = -1) : Held nthr k' := by
  have htyped := h.typed.step locks_obeys hs
  cases h.typed.trans hs with
  | idle _ _ same => exact same ▸ h
  | run pc rest code frame =>
      refine ⟨htyped, h.holder_run code frame fun hpc => hfree (by simp [comesBack, code, hpc]), fun p hm => ?_⟩
      exact absurd hm (h.release_run code frame p)
  | call c code may same =>
      subst same
      refine ⟨htyped, h.holder, fun p hm => ?_⟩
      rcases eq_or_ne p k.tp with rfl | hne
      · rw [setCode_code_tp] at hm ⊢
        obtain rfl : .dev .lockRelease = c := by simpa using hm
        have hmem : k.tp ∈ k.dev.inside := by simpa [mayCall, lockUsers, Kernel.ctx] using may
        exact ⟨rfl, rfl, hmem⟩
      · rw [setCode_code_of_ne k _ hne] at hm
        exact absurd (h.release p hm).1 hne
  | isr e sie woke =>
      have hsame := woke.same
      refine ⟨htyped, ?_, ?_⟩
      · rw [hsame]
        exact h.holder
      · rw [hsame]
        exact h.release
  | env e same =>
      subst same
      exact ⟨htyped, h.holder, h.release⟩

theorem held_threadInit (hn : 2 ≤ nthr) (satp : Nat) (sie : Bool) : Held nthr (threadInit nthr lockInit satp sie) := by
  refine ⟨typed_threadInit hn locks lockInit satp sie, .inl rfl, fun p hm => ?_⟩
  rcases eq_or_ne p idleThread with rfl | hne
  · simp [threadInit] at hm
  · simp [threadInit, hne] at hm

theorem Held.run (h : Held nthr k) {ls : List (Label LockCall (List Nat))} (hfree : wokenFree nthr k ls = true)
    (hr : run lockUsers nthr k ls = .ok k') : Held nthr k' :=
  run_along (fun _ _ _ h hgood hs => h.step hs fun hb => by simpa [hb] using hgood) h hfree hr

end Steps

/-- The sleep lock excludes as long as nobody takes it between a lock_release and the
return of the threads that lock_release woke. -/
theorem run_exclusive (hn : 2 ≤ nthr) (satp : Nat) (sie : Bool) (ls : List (Label LockCall (List Nat)))
    (hfree : wokenFree nthr (threadInit nthr lockInit satp sie) ls = true) (k : Kernel LockState LockCall)
    (hr : run lockUsers nthr (threadInit nthr lockInit satp sie) ls = .ok k) : Exclusive k :=
  ((held_threadInit hn satp sie).run hfree hr).exclusive

/-- Calls one after the other, each with the steps until the next one. -/
def oneByOne (cs : List (Call LockCall)) : List (Label LockCall (List Nat)) :=
  cs.flatMap fun c => .call c :: List.replicate 24 .run

/-- The main thread takes the lock, a second thread waits for it and gets it. -/
def handOver : List (Call LockCall) :=
  [.threadSpawn 0x80400000, .dev .lockAcquire, .threadYield, .dev .lockAcquire, .dev .lockRelease, .threadYield]

theorem run_exclusive_handOver : ∃ k,
    run lockUsers 16 (threadInit 16 lockInit 0 true) (oneByOne handOver) = .ok k ∧ k.dev.inside = [2] ∧ Exclusive k := by
  have hview : ((run lockUsers 16 (threadInit 16 lockInit 0 true) (oneByOne handOver)).toOption.map fun k =>
      k.dev.inside) = some [2] := by decide +kernel
  have hfree : wokenFree 16 (threadInit 16 lockInit 0 true) (oneByOne handOver) = true := by decide +kernel
  cases hr : run lockUsers 16 (threadInit 16 lockInit 0 true) (oneByOne handOver) with
  | error s =>
      rw [hr] at hview
      cases hview
  | ok k =>
      rw [hr] at hview
      exact ⟨k, rfl, Option.some.inj hview, run_exclusive (by decide) 0 true _ hfree k hr⟩

/-- The main thread gives the lock back and takes it again before the thread it woke runs,
and waits for something else inside. -/
def takeAgain : List (Call LockCall) :=
  [.threadSpawn 0x80400000, .dev .lockAcquire, .threadYield, .dev .lockAcquire, .dev .lockRelease, .dev .lockAcquire,
    .conditionWait 1]

theorem takeAgain_two_inside : ∃ k,
    run lockUsers 16 (threadInit 16 lockInit 0 true) (oneByOne takeAgain) = .ok k ∧ k.dev.inside = [2, 0] ∧ ¬ Exclusive k := by
  have hview : ((run lockUsers 16 (threadInit 16 lockInit 0 true) (oneByOne takeAgain)).toOption.map fun k =>
      k.dev.inside) = some [2, 0] := by decide +kernel
  cases hr : run lockUsers 16 (threadInit 16 lockInit 0 true) (oneByOne takeAgain) with
  | error s =>
      rw [hr] at hview
      cases hview
  | ok k =>
      rw [hr] at hview
      have hin : k.dev.inside = [2, 0] := Option.some.inj hview
      refine ⟨k, rfl, hin, fun h => ?_⟩
      have := h.1
      rw [hin] at this
      exact absurd this (by decide)

end RiscvKernel.LockExclusion
