import RiscvKernel.StepFrame

namespace RiscvKernel.StackReturn

open Thread Scheduler SchedulerInv StepFrame

variable {σ ι ε : Type} {nthr : Nat} {cl : Client σ ι ε} {k k' : Kernel σ ι} {ready : List Ptr}
  {waits : Cond → List Ptr} {pc : Pc ι} {rest : List (Pc ι)} {l : Label ι ε} {ls : List (Label ι ε)}

/-- The step is the context switch of a thread that has exited. -/
def leaves (k : Kernel σ ι) : Label ι ε → Bool
  | .run =>
      match k.code k.tp with
      | .suspSwtch _ _ :: _ => k.state k.tp = .exited
      | _ => false
  | _ => false

/-- The threads that have exited before a context switch of the run. -/
def gone (cl : Client σ ι ε) (nthr : Nat) : Kernel σ ι → List (Label ι ε) → List Ptr
  | _, [] => []
  | k, l :: ls =>
      (if leaves k l then [k.tp] else []) ++
        match step cl nthr k l with
        | .ok k' => gone cl nthr k' ls
        | .error _ => []

def spawnedWith (k : Kernel σ ι) (page : Ptr → Nat) : Label ι ε → Ptr → Nat
  | .run =>
      match k.code k.tp with
      | .call (.threadSpawn stackPage) :: _ => Function.update page k.brk stackPage
      | _ => page
  | _ => page

/-- The page that memory_alloc_page gave thread_spawn for the stack of each thread. -/
def stackPages (cl : Client σ ι ε) (nthr : Nat) : Kernel σ ι → (Ptr → Nat) → List (Label ι ε) → Ptr → Nat
  | _, page, [] => page
  | k, page, l :: ls =>
      match step cl nthr k l with
      | .ok k' => stackPages cl nthr k' (spawnedWith k page l) ls
      | .error _ => page

/-- The pages that suspend_self has freed are the stack pages of the threads that are gone,
each of them once. -/
def StacksReturned (cl : Client σ ι ε) (nthr : Nat) (k : Kernel σ ι) (ls : List (Label ι ε)) (freed : List Nat) : Prop :=
  freed.Perm ((gone cl nthr k ls).map (stackPages cl nthr k (fun _ => 0) ls))

theorem enter_freed {c : Call ι} (h : enter cl nthr k rest c = .ok k') : k'.freed = k.freed := by
  cases c with
  | threadSpawn page =>
      rw [enter] at h
      split at h
      · obtain rfl := Except.ok.inj h
        rfl
      · cases h
  | threadExit =>
      rw [enter] at h
      split at h
      · cases h
      · split at h
        · obtain rfl := Except.ok.inj h
          rfl
        · cases h
  | threadYield =>
      rw [enter] at h
      split at h
      · obtain rfl := Except.ok.inj h
        rfl
      · cases h
  | threadJoin tid =>
      rw [enter] at h
      repeat' split at h
      all_goals
        obtain rfl := Except.ok.inj h
        rfl
  | threadJoinAny =>
      rw [enter] at h
      split at h
      · obtain rfl := Except.ok.inj h
        rfl
      · split at h
        · obtain rfl := Except.ok.inj h
          rfl
        · cases h
  | _ =>
      obtain rfl := Except.ok.inj h
      rfl

theorem recycle_freed {tid : Nat} {ret : Int}
    (h : (k.recycleThread nthr tid >>= fun k => pure ((k.setRet ret).setCode rest)) = .ok k') : k'.freed = k.freed := by
  rcases recycleThread_cases k nthr tid with ⟨thr, -, -, -, -, hr⟩ | hr
  · rw [hr] at h
    obtain rfl := Except.ok.inj h
    rfl
  · rw [hr] at h
    cases h

/-- _thread_swtch returns the resumed thread, which is RUNNING: suspend_self frees nothing. -/
theorem exec_freed (hi : Inv nthr k ready waits) (hcode : k.code k.tp = pc :: rest)
    (h : exec cl nthr k rest pc = .ok k') : k'.freed = k.freed := by
  have hcore := hi.core
  have hcur := hi.current
  rw [hcode] at hcore hcur
  cases pc with
  | call c => exact enter_freed h
  | suspResumed saved =>
      rw [exec, if_neg (by simp [hcur.1])] at h
      obtain rfl := Except.ok.inj h
      rfl
  | waitEnter c =>
      rw [exec, if_pos hcur.1] at h
      obtain rfl := Except.ok.inj h
      rfl
  | waitInsert c saved =>
      obtain ⟨next, list, hins, -⟩ := hcore.insertWait hcur.1 hcur.2.1
      rw [exec, hins] at h
      obtain rfl := Except.ok.inj h
      rfl
  | bcastBody c saved =>
      obtain ⟨next, list, hwake, -⟩ := hcore.wakeAll c
      rw [exec, hwake] at h
      obtain rfl := Except.ok.inj h
      rfl
  | suspEnter =>
      rw [exec] at h
      split at h
      · cases h
      · obtain rfl := Except.ok.inj h
        rfl
  | suspDispatch saved =>
      have hne : ready ≠ [] := by
        rcases eq_or_ne k.tp idleThread with he | hne
        · exact hi.idleYield he (by rw [hcode]; trivial)
        · exact hcore.ready_ne_nil hne
      obtain ⟨n, k₁, ready', hdisp, -, -, -, -, hk₁⟩ := hcore.dispatch hne
      rw [exec, hdisp] at h
      obtain rfl := Except.ok.inj h
      rw [hk₁]
      rfl
  | spawnInsert child saved =>
      have hst : k.state child = .ready := hi.spawned child (by rw [hcode]; rfl)
      have hct : child ≠ k.tp := fun he => by cases hcur.1.symm.trans (he ▸ hst)
      obtain ⟨next, list, hins, -⟩ := hcore.insertReady hst hct
      rw [exec, hins] at h
      obtain rfl := Except.ok.inj h
      rfl
  | exitFailed => cases h
  | joinLoop tid child =>
      rw [exec] at h
      split at h
      · exact recycle_freed h
      · obtain rfl := Except.ok.inj h
        rfl
  | joinAnyScan =>
      rw [exec] at h
      split at h
      · exact recycle_freed h
      · cases h
  | _ =>
      obtain rfl := Except.ok.inj h
      rfl

theorem step_freed (hi : Inv nthr k ready waits) (hf : Fresh k) (h : step cl nthr k l = .ok k') : k'.freed = k.freed := by
  cases step_trans hi hf h with
  | idle _ _ same => rw [same]
  | run pc rest hcode frame =>
      rw [step, hcode] at h
      exact exec_freed hi hcode h
  | call c hcode may same =>
      rw [same]
      rfl
  | isr e sie woke => rw [woke.same]
  | env e same => rw [same]

theorem run_freed (hi : Inv nthr k ready waits) (hf : Fresh k) (h : run cl nthr k ls = .ok k') : k'.freed = k.freed := by
  induction ls generalizing k ready waits with
  | nil =>
      obtain rfl := Except.ok.inj h
      rfl
  | cons l ls ih =>
      obtain ⟨k₁, hs, hr⟩ := run_cons_ok h
      have hi₁ : Kept nthr (step cl nthr k l) := hi.step l
      rw [hs] at hi₁
      obtain ⟨ready₁, waits₁, hi₁⟩ := hi₁
      rw [ih hi₁ (fresh_of_trans hi hf (step_trans hi hf hs)) hr, step_freed hi hf hs]

theorem gone_eq_nil_iff (h : run cl nthr k ls = .ok k') :
    gone cl nthr k ls = [] ↔ along cl nthr (fun k l => !leaves k l) k ls = true := by
  induction ls generalizing k with
  | nil => exact iff_of_true rfl rfl
  | cons l ls ih =>
      obtain ⟨k₁, hs, hr⟩ := run_cons_ok h
      rw [gone, along, hs, List.append_eq_nil_iff, Bool.and_eq_true, ih hr]
      refine and_congr_left fun _ => ?_
      cases leaves k l <;> simp

/-- In a run from thread_init the stack pages of the threads that exit are returned exactly
when no thread exits before a context switch. -/
theorem run_stacksReturned_iff (cl : Client σ ι ε) (hn : 2 ≤ nthr) (dev : σ) (satp : Nat) (sie : Bool)
    (ls : List (Label ι ε)) (hr : run cl nthr (threadInit nthr dev satp sie) ls = .ok k) :
    StacksReturned cl nthr (threadInit nthr dev satp sie) ls k.freed ↔
      along cl nthr (fun k l => !leaves k l) (threadInit nthr dev satp sie) ls = true := by
  have hfreed : k.freed = [] := run_freed (inv_threadInit hn dev satp sie) (fresh_threadInit nthr dev satp sie) hr
  rw [StacksReturned, hfreed, List.nil_perm, List.map_eq_nil_iff, gone_eq_nil_iff hr]

theorem run_stacksReturned_iff_spawnAndJoin :
    ∃ k, run noDrivers 16 (threadInit 16 () 0 true) spawnAndJoin = .ok k ∧
      StacksReturned noDrivers 16 (threadInit 16 () 0 true) spawnAndJoin k.freed := by
  have hgood : along noDrivers 16 (fun k l => !leaves k l) (threadInit 16 () 0 true) spawnAndJoin = true := by
    decide +kernel
  have hok : (run noDrivers 16 (threadInit 16 () 0 true) spawnAndJoin).isOk = true := by decide +kernel
  cases hr : run noDrivers 16 (threadInit 16 () 0 true) spawnAndJoin with
  | error s =>
      rw [hr] at hok
      cases hok
  | ok k => exact ⟨k, rfl, (run_stacksReturned_iff noDrivers (by decide) () 0 true spawnAndJoin hr).mpr hgood⟩

/-- The spawned thread exits and wakes the main thread, which joins it. -/
def spawnAndExit : List (Label Empty Empty) :=
  spawnAndJoin ++ .call .threadExit :: List.replicate 24 .run

theorem not_stacksReturned_spawnAndExit :
    ∃ k, run noDrivers 16 (threadInit 16 () 0 true) spawnAndExit = .ok k ∧ k.tp = mainThread ∧ k.code mainThread = [] ∧
      gone noDrivers 16 (threadInit 16 () 0 true) spawnAndExit = [2] ∧
      ¬ StacksReturned noDrivers 16 (threadInit 16 () 0 true) spawnAndExit k.freed := by
  have hview : ((run noDrivers 16 (threadInit 16 () 0 true) spawnAndExit).toOption.map fun k =>
      (k.tp, (k.code mainThread).isEmpty, k.freed)) = some (mainThread, true, []) := by decide +kernel
  have hgone : gone noDrivers 16 (threadInit 16 () 0 true) spawnAndExit = [2] := by decide +kernel
  cases hr : run noDrivers 16 (threadInit 16 () 0 true) spawnAndExit with
  | error s =>
      rw [hr] at hview
      cases hview
  | ok k =>
      rw [hr] at hview
      simp only [Except.toOption, Option.map_some, Option.some.injEq, Prod.mk.injEq, List.isEmpty_iff] at hview
      obtain ⟨htp, hcode, hfreed⟩ := hview
      refine ⟨k, rfl, htp, hcode, hgone, ?_⟩
      rw [StacksReturned, hgone, hfreed]
      simp

end RiscvKernel.StackReturn
