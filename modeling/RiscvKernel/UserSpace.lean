import RiscvKernel.StepFrame

namespace RiscvKernel.UserSpace

open Thread Scheduler SchedulerInv StepFrame

variable {σ ι ε : Type} {nthr : Nat}

theorem bind_ok {α β : Type} {x : Except Stop α} {f : α → Except Stop β} {r : β} (h : x >>= f = .ok r) :
    ∃ a, x = .ok a ∧ f a = .ok r := by
  cases x with
  | error s => cases h
  | ok a => exact ⟨a, rfl, h⟩

section Space

variable {cl : Client σ ι ε} {k k' : Kernel σ ι} {pc : Pc ι} {rest : List (Pc ι)}

/-- The active memory space after a step from pc. -/
def satpAfter (cl : Client σ ι ε) (k : Kernel σ ι) : Pc ι → Nat
  | .call (.dev i) => (cl.exec i k.ctx k.dev).satp
  | .suspSpace next _ => ((k.proc next).map (cl.mtag k.dev)).getD k.satp
  | _ => k.satp

/-- Only the lists of threads and their states differ. -/
structure SameSpace (k k' : Kernel σ ι) : Prop where
  satp : k'.satp = k.satp
  proc : k'.proc = k.proc
  tp : k'.tp = k.tp
  code : k'.code = k.code
  dev : k'.dev = k.dev

theorem insertWait_space {c : Cond} {t : Ptr} (h : k.insertWait c t = .ok k') : SameSpace k k' := by
  unfold Kernel.insertWait at h
  split at h
  · obtain rfl := Except.ok.inj h
    exact ⟨rfl, rfl, rfl, rfl, rfl⟩
  · cases h

theorem insertReady_space {t : Ptr} (h : k.insertReady t = .ok k') : SameSpace k k' := by
  unfold Kernel.insertReady at h
  split at h
  · obtain rfl := Except.ok.inj h
    exact ⟨rfl, rfl, rfl, rfl, rfl⟩
  · cases h

theorem wakeLoop_space {c : Cond} {fuel : Nat} {t : Option Ptr} (h : Kernel.wakeLoop c fuel t k = .ok k') :
    SameSpace k k' := by
  induction fuel generalizing t k with
  | zero =>
      cases t with
      | none =>
          obtain rfl := Except.ok.inj h
          exact ⟨rfl, rfl, rfl, rfl, rfl⟩
      | some t => cases h
  | succ fuel ih =>
      cases t with
      | none =>
          obtain rfl := Except.ok.inj h
          exact ⟨rfl, rfl, rfl, rfl, rfl⟩
      | some t =>
          rw [Kernel.wakeLoop] at h
          split at h
          · cases h
          · split at h
            · cases h
            · have := ih h
              exact ⟨this.satp, this.proc, this.tp, this.code, this.dev⟩

theorem wakeAll_space {c : Cond} (h : k.wakeAll nthr c = .ok k') : SameSpace k k' := by
  obtain ⟨k₁, hw, h⟩ := bind_ok h
  have hsame := wakeLoop_space hw
  split at h
  · obtain rfl := Except.ok.inj h
    exact ⟨hsame.satp, hsame.proc, hsame.tp, hsame.code, hsame.dev⟩
  · cases h

theorem broadcast_space {c : Cond} (h : k.broadcast nthr c = .ok k') : SameSpace k k' := by
  unfold Kernel.broadcast at h
  split at h
  · obtain rfl := Except.ok.inj h
    exact ⟨rfl, rfl, rfl, rfl, rfl⟩
  · exact wakeAll_space h

theorem dispatch_space {next : Ptr} (h : k.dispatch = .ok (next, k')) : SameSpace k k' := by
  unfold Kernel.dispatch at h
  split at h
  · split at h
    · cases h
    · dsimp only at h
      split at h
      · obtain ⟨k₁, hins, h⟩ := bind_ok h
        obtain ⟨-, rfl⟩ := Prod.mk.inj (Except.ok.inj h)
        have hsame := insertReady_space hins
        exact ⟨hsame.satp, hsame.proc, hsame.tp, hsame.code, hsame.dev⟩
      · obtain ⟨-, rfl⟩ := Prod.mk.inj (Except.ok.inj h)
        exact ⟨rfl, rfl, rfl, rfl, rfl⟩
  · cases h

/-- What a step does to the memory space, the processes of the threads and the drivers. -/
structure SpaceStep (cl : Client σ ι ε) (k k' : Kernel σ ι) (pc : Pc ι) : Prop where
  satp : k'.satp = satpAfter cl k pc
  inherits : ∀ p, k'.proc p = k.proc p ∨ k'.proc p = k.proc k.tp
  dev : k'.dev = devAfter cl k pc

theorem SameSpace.spaceStep (h : SameSpace k k') (code : List (Pc ι)) (sie : Bool) (hsatp : satpAfter cl k pc = k.satp)
    (hdev : devAfter cl k pc = k.dev) : SpaceStep cl k ({ k' with sie }.setCode code) pc :=
  ⟨h.satp.trans hsatp.symm, fun p => .inl (by rw [← h.proc]; rfl), h.dev.trans hdev.symm⟩

theorem enter_space {c : Call ι} (h : enter cl nthr k rest c = .ok k') : SpaceStep cl k k' (.call c) := by
  cases c with
  | threadSpawn page =>
      rw [enter] at h
      split at h
      · obtain rfl := Except.ok.inj h
        refine ⟨rfl, fun p => ?_, rfl⟩
        rcases eq_or_ne p k.brk with rfl | hne
        · exact .inr (Function.update_self ..)
        · exact .inl (Function.update_of_ne hne ..)
      · cases h
  | threadExit | threadYield | threadJoin tid | threadJoinAny =>
      rw [enter] at h
      repeat' split at h
      all_goals first
        | cases h; done
        | obtain rfl := Except.ok.inj h; exact ⟨rfl, fun _ => .inl rfl, rfl⟩
  | _ =>
      obtain rfl := Except.ok.inj h
      exact ⟨rfl, fun _ => .inl rfl, rfl⟩

theorem recycle_space {tid : Nat} (h : (do let k ← k.recycleThread nthr tid; return (k.setRet tid).setCode rest) = .ok k')
    (hsatp : satpAfter cl k pc = k.satp) (hdev : devAfter cl k pc = k.dev) : SpaceStep cl k k' pc := by
  rcases recycleThread_cases k nthr tid with ⟨thr, -, -, -, -, heq⟩ | heq
  · rw [heq] at h
    obtain rfl := Except.ok.inj h
    exact ⟨hsatp.symm, fun _ => .inl rfl, hdev.symm⟩
  · rw [heq] at h
    cases h

theorem exec_space (h : exec cl nthr k rest pc = .ok k') : SpaceStep cl k k' pc := by
  cases pc with
  | call c => exact enter_space h
  | waitInsert c saved =>
      obtain ⟨k₁, hins, h⟩ := bind_ok h
      obtain rfl := Except.ok.inj h
      exact (insertWait_space hins).spaceStep _ _ rfl rfl
  | bcastBody c saved =>
      obtain ⟨k₁, hwake, h⟩ := bind_ok h
      obtain rfl := Except.ok.inj h
      exact (wakeAll_space hwake).spaceStep _ _ rfl rfl
  | suspDispatch saved =>
      obtain ⟨⟨next, k₁⟩, hdis, h⟩ := bind_ok h
      obtain rfl := Except.ok.inj h
      exact (dispatch_space hdis).spaceStep _ _ rfl rfl
  | spawnInsert child saved =>
      obtain ⟨k₁, hins, h⟩ := bind_ok h
      obtain rfl := Except.ok.inj h
      exact (insertReady_space hins).spaceStep _ _ rfl rfl
  | joinLoop tid child =>
      rw [exec] at h
      split at h
      · exact recycle_space h rfl rfl
      · obtain rfl := Except.ok.inj h
        exact ⟨rfl, fun _ => .inl rfl, rfl⟩
  | joinAnyScan =>
      rw [exec] at h
      split at h
      · exact recycle_space h rfl rfl
      · cases h
  | exitFailed => cases h
  | waitEnter c | suspEnter | suspResumed saved =>
      rw [exec] at h
      split at h
      all_goals first
        | cases h; done
        | obtain rfl := Except.ok.inj h; exact ⟨rfl, fun _ => .inl rfl, rfl⟩
  | _ =>
      obtain rfl := Except.ok.inj h
      exact ⟨rfl, fun _ => .inl rfl, rfl⟩

theorem isr_space {conds : List Nat} (h : conds.foldlM (fun k n => k.broadcast nthr (.ext n)) k = .ok k') :
    SameSpace k k' := by
  induction conds generalizing k with
  | nil =>
      obtain rfl := Except.ok.inj h
      exact ⟨rfl, rfl, rfl, rfl, rfl⟩
  | cons n conds ih =>
      rw [List.foldlM_cons] at h
      obtain ⟨k₁, hb, h⟩ := bind_ok h
      have h₁ := broadcast_space hb
      have h₂ := ih h
      exact ⟨h₂.satp.trans h₁.satp, h₂.proc.trans h₁.proc, h₂.tp.trans h₁.tp, h₂.code.trans h₁.code, h₂.dev.trans h₁.dev⟩

end Space

/-- A call inside a system call after which the thread may have been suspended. -/
inductive Blocking
  | yield
  | wait (cond : Nat)
  | broadcast (cond : Nat)

/-- The system calls that have to do with memory spaces, those that block, and where the
first ones are between two changes of satp. -/
inductive ProcCall
  | sysfork
  | forkSwitch (mtag : Nat)
  | sysexec (elfLoad : List Blocking)
  | sysexit
  | memorySpaceReclaim
  | syswait (tid : Int)
  | sysother (cs : List Blocking)
  | sret

/-- The mtag of the process in each slot of proctab, the root that memory_space_clone will
make next, and which spaces memory_space_reclaim has taken. -/
structure Spaces where
  proctab : Nat → Option Nat
  nextRoot : Nat
  reclaimed : Nat → Bool
  mainMtag : Nat

def nproc : Nat := 16

def Spaces.mtag (s : Spaces) (proc : Nat) : Nat := (s.proctab proc).getD 0

def Blocking.toCall : Blocking → Call ProcCall
  | .yield => .threadYield
  | .wait n => .conditionWait n
  | .broadcast n => .conditionBroadcast n

/-- process_fork up to memory_space_switch: a copy of the active space for the process in
the first free slot. -/
def fork (s : Spaces) : Spaces :=
  { s with
    nextRoot := s.nextRoot + 1
    proctab :=
      match (List.range nproc).find? fun x => (s.proctab x).isNone with
      | some x => Function.update s.proctab x (some s.nextRoot)
      | none => s.proctab }

def procExec : ProcCall → Ctx → Spaces → Effect Spaces ProcCall
  | .sysfork, ctx, s => ⟨fork s, ctx.sie, ctx.satp, [.dev (.forkSwitch s.nextRoot)]⟩
  | .forkSwitch mtag, ctx, s => ⟨s, ctx.sie, mtag, [.dev .sret]⟩
  | .sysexec elfLoad, ctx, s => ⟨s, ctx.sie, ctx.satp, elfLoad.map Blocking.toCall ++ [.dev .sret]⟩
  | .sysexit, ctx, s => ⟨s, ctx.sie, ctx.satp, [.dev .memorySpaceReclaim]⟩
  | .memorySpaceReclaim, ctx, s =>
      ⟨{ s with reclaimed := Function.update s.reclaimed ctx.satp true }, ctx.sie, s.mainMtag, [.threadExit]⟩
  | .syswait tid, ctx, s =>
      ⟨s, ctx.sie, ctx.satp, [if tid = 0 then .threadJoinAny else .threadJoin tid, .dev .sret]⟩
  | .sysother cs, ctx, s => ⟨s, ctx.sie, ctx.satp, cs.map Blocking.toCall ++ [.dev .sret]⟩
  | .sret, ctx, s => ⟨s, ctx.sie, ctx.satp, []⟩

/-- Threads of processes; interrupts broadcast what they like. -/
def processes : Client Spaces ProcCall (List Nat) where
  exec := procExec
  entry
    | .forkSwitch _, _, _ | .memorySpaceReclaim, _, _ | .sret, _, _ => false
    | _, ctx, _ => ctx.proc.isSome
  ownCond _ := false
  isr conds s := (s, conds)
  env _ s := s
  mtag := Spaces.mtag

/-- After procmgr_init: the main thread has the main process, around the main space. -/
def procmgrInit (nthr mainMtag : Nat) (sie : Bool) : Kernel Spaces ProcCall :=
  { (threadInit nthr ⟨Function.update (fun _ => none) 0 (some mainMtag), mainMtag + 1, fun _ => false, mainMtag⟩ mainMtag sie) with
    proc := Function.update (fun _ => none) mainThread (some 0) }

/-- A thread returns to user mode in the space of its process, which is still there. -/
def SpaceSafe (k : Kernel Spaces ProcCall) : Prop :=
  ∀ P rest, k.code k.tp = .call (.dev .sret) :: rest → k.proc k.tp = some P →
    k.satp = k.dev.mtag P ∧ k.dev.reclaimed (k.dev.mtag P) = false

/-- No fork, and no exit of a thread that leaves the main thread behind in the same space. -/
def keepsSpace : ProcCall → Ctx → Spaces → Bool
  | .forkSwitch _, _, _ => false
  | .memorySpaceReclaim, ctx, _ => ctx.tp = mainThread
  | _, _, _ => true

structure SpaceInv (k : Kernel Spaces ProcCall) : Prop where
  satp : k.satp = k.dev.mainMtag
  main : k.dev.mtag 0 = k.dev.mainMtag
  slot : (k.dev.proctab 0).isSome
  proc : ∀ p P, k.proc p = some P → P = 0
  exiting : k.dev.reclaimed k.dev.mainMtag = true → k.tp = mainThread ∧ ∃ rest, k.code mainThread = .call .threadExit :: rest

theorem fork_main {s : Spaces} (h : (s.proctab 0).isSome) : (fork s).proctab 0 = s.proctab 0 := by
  cases hx : (List.range nproc).find? fun x => (s.proctab x).isNone with
  | none => simp only [fork, hx]
  | some x =>
      simp only [fork, hx]
      have hx' := List.find?_some hx
      refine Function.update_of_ne ?_ _ _
      rintro rfl
      simp [Option.isNone_iff_eq_none.mp hx'] at h

section Steps

variable {k k' : Kernel Spaces ProcCall} {pc : Pc ProcCall} {rest : List (Pc ProcCall)}

/-- Outside the system calls only a switch to another thread changes satp. -/
theorem SpaceInv.exec (h : SpaceInv k) (hcode : k.code k.tp = pc :: rest) (hs : exec processes nthr k rest pc = .ok k')
    (hpc : ∀ i, pc ≠ .call (.dev i)) : SpaceInv k' := by
  have hstep := exec_space hs
  have hdev : k'.dev = k.dev := by
    rw [hstep.dev]
    unfold devAfter
    split
    · exact absurd rfl (hpc _)
    · rfl
  have hsatp : k'.satp = k.dev.mainMtag := by
    rw [hstep.satp]
    unfold satpAfter
    split
    · exact absurd rfl (hpc _)
    · rename_i next saved
      cases hp : k.proc next with
      | none => exact h.satp
      | some P =>
          obtain rfl := h.proc next P hp
          exact h.main
    · exact h.satp
  refine ⟨by rw [hdev]; exact hsatp, by rw [hdev]; exact h.main, by rw [hdev]; exact h.slot, fun p P hp => ?_, fun hr => ?_⟩
  · rcases hstep.inherits p with he | he
    · exact h.proc p P (he ▸ hp)
    · exact h.proc k.tp P (he ▸ hp)
  · rw [hdev] at hr
    obtain ⟨htp, rest', hexit⟩ := h.exiting hr
    rw [htp, hexit] at hcode
    obtain ⟨rfl, -⟩ := List.cons.inj hcode
    simp [Scheduler.exec, enter, htp] at hs

theorem SpaceInv.dev (h : SpaceInv k) {i : ProcCall} (hcode : k.code k.tp = .call (.dev i) :: rest)
    (hs : Scheduler.exec processes nthr k rest (.call (.dev i)) = .ok k') (hi : keepsSpace i k.ctx k.dev = true) : SpaceInv k' := by
  have hno : k.dev.reclaimed k.dev.mainMtag ≠ true := fun hr => by
    obtain ⟨htp, rest', hexit⟩ := h.exiting hr
    rw [htp, hexit] at hcode
    cases hcode
  obtain rfl := Except.ok.inj hs
  cases i with
  | sysfork =>
      have hmain := fork_main h.slot
      refine ⟨h.satp, ?_, ?_, h.proc, fun hr => absurd hr hno⟩
      · exact (congrArg (·.getD 0) hmain).trans h.main
      · exact hmain ▸ h.slot
  | forkSwitch mtag => cases hi
  | memorySpaceReclaim =>
      have htp : k.tp = mainThread := of_decide_eq_true hi
      refine ⟨rfl, h.main, h.slot, h.proc, fun _ => ⟨htp, rest, ?_⟩⟩
      rw [← htp]
      exact setCode_code_tp _ _
  | _ => exact ⟨h.satp, h.main, h.slot, h.proc, fun hr => absurd hr hno⟩

theorem SpaceInv.step (h : SpaceInv k) {l : Label ProcCall (List Nat)} (hgood : meets keepsSpace k l = true)
    (hs : step processes nthr k l = .ok k') : SpaceInv k' := by
  cases l with
  | run =>
      rw [Scheduler.step] at hs
      split at hs
      · exact Except.ok.inj hs ▸ h
      · rename_i pc rest hcode
        by_cases hpc : ∃ i, pc = .call (.dev i)
        · obtain ⟨i, rfl⟩ := hpc
          exact h.dev hcode hs (by simpa [meets, hcode] using hgood)
        · exact h.exec hcode hs fun i hi => hpc ⟨i, hi⟩
  | call c =>
      rw [Scheduler.step] at hs
      obtain rfl := Except.ok.inj hs
      split
      · rename_i hc
        refine ⟨h.satp, h.main, h.slot, h.proc, fun hr => ?_⟩
        obtain ⟨htp, rest, hexit⟩ := h.exiting hr
        rw [htp, hexit] at hc
        simp at hc
      · exact h
  | isr conds =>
      rw [Scheduler.step] at hs
      split at hs
      · have hsame := isr_space hs
        have hdev : k'.dev = k.dev := hsame.dev
        refine ⟨?_, ?_, ?_, fun p P hp => h.proc p P ?_, fun hr => ?_⟩
        · rw [hsame.satp, hdev]
          exact h.satp
        · rw [hdev]
          exact h.main
        · rw [hdev]
          exact h.slot
        · rw [hsame.proc] at hp
          exact hp
        · rw [hdev] at hr
          rw [hsame.tp, hsame.code]
          exact h.exiting hr
      · exact Except.ok.inj hs ▸ h
  | env e =>
      obtain rfl := Except.ok.inj hs
      exact ⟨h.satp, h.main, h.slot, h.proc, h.exiting⟩

end Steps

theorem spaceSafe_of_inv {k : Kernel Spaces ProcCall} (h : SpaceInv k) : SpaceSafe k := by
  intro P rest hcode hp
  obtain rfl := h.proc k.tp P hp
  rw [h.main]
  refine ⟨h.satp, Bool.eq_false_iff.mpr fun hr => ?_⟩
  obtain ⟨htp, rest', hexit⟩ := h.exiting hr
  rw [htp, hexit] at hcode
  cases hcode

theorem spaceInv_procmgrInit (nthr mainMtag : Nat) (sie : Bool) : SpaceInv (procmgrInit nthr mainMtag sie) := by
  refine ⟨rfl, ?_, ?_, fun p P hp => ?_, nofun⟩
  · simp [procmgrInit, threadInit, Spaces.mtag]
  · simp [procmgrInit, threadInit]
  · rcases eq_or_ne p mainThread with rfl | hne
    · simpa [procmgrInit, eq_comm] using hp
    · simp [procmgrInit, hne] at hp

/-- As long as no process is forked and only the main thread exits, every return to user
mode is in the space of the thread's process. -/
theorem run_spaceSafe (mainMtag : Nat) (sie : Bool) (ls : List (Label ProcCall (List Nat)))
    (hgood : along processes nthr (meets keepsSpace) (procmgrInit nthr mainMtag sie) ls = true)
    (k : Kernel Spaces ProcCall) (hr : run processes nthr (procmgrInit nthr mainMtag sie) ls = .ok k) : SpaceSafe k :=
  spaceSafe_of_inv (run_along (fun _ _ _ h hg hs => h.step hg hs) (spaceInv_procmgrInit nthr mainMtag sie) hgood hr)

def atSret (k : Kernel Spaces ProcCall) : Bool :=
  match k.code k.tp with
  | .call (.dev .sret) :: _ => true
  | _ => false

theorem atSret_code {k : Kernel Spaces ProcCall} (h : atSret k = true) : ∃ rest, k.code k.tp = .call (.dev .sret) :: rest := by
  unfold atSret at h
  split at h
  · exact ⟨_, ‹_›⟩
  · cases h

/-- The main thread makes a second thread and yields in a system call; the second thread
executes a program, which it waits for while it is loaded. -/
def twoThreads : List (Label ProcCall (List Nat)) :=
  (.call (.threadSpawn 0x80400000) :: List.replicate 4 .run : List (Label ProcCall (List Nat))) ++
    (.call (.dev (.sysother [.yield])) :: List.replicate 24 .run : List (Label ProcCall (List Nat))) ++
    (.call (.dev (.sysexec [.yield])) :: List.replicate 10 .run : List (Label ProcCall (List Nat)))

theorem run_spaceSafe_twoThreads : ∃ k, run processes 16 (procmgrInit 16 7 true) twoThreads = .ok k ∧ k.tp = mainThread ∧
    (∃ rest, k.code k.tp = .call (.dev .sret) :: rest) ∧ SpaceSafe k := by
  have hview : ((run processes 16 (procmgrInit 16 7 true) twoThreads).toOption.map fun k => (k.tp, atSret k)) =
      some (mainThread, true) := by decide +kernel
  have hgood : along processes 16 (meets keepsSpace) (procmgrInit 16 7 true) twoThreads = true := by decide +kernel
  cases hr : run processes 16 (procmgrInit 16 7 true) twoThreads with
  | error s =>
      rw [hr] at hview
      cases hview
  | ok k =>
      rw [hr] at hview
      obtain ⟨htp, hsret⟩ := Prod.mk.inj (Option.some.inj hview)
      exact ⟨k, rfl, htp, atSret_code hsret, run_spaceSafe 7 true twoThreads hgood k hr⟩

/-- The main thread forks. -/
def forks : List (Label ProcCall (List Nat)) := .call (.dev .sysfork) :: List.replicate 2 .run

theorem forks_wrong_space : ¬ ∀ ls k, run processes 16 (procmgrInit 16 7 true) ls = .ok k → SpaceSafe k := by
  intro hall
  have hview : ((run processes 16 (procmgrInit 16 7 true) forks).toOption.map fun k =>
      (k.satp, k.dev.mtag 0, k.proc k.tp, atSret k)) = some (8, 7, some 0, true) := by decide +kernel
  cases hr : run processes 16 (procmgrInit 16 7 true) forks with
  | error s =>
      rw [hr] at hview
      cases hview
  | ok k =>
      rw [hr] at hview
      have hk : (k.satp, k.dev.mtag 0, k.proc k.tp, atSret k) = (8, 7, some 0, true) := Option.some.inj hview
      obtain ⟨rest, hcode⟩ := atSret_code (congrArg (·.2.2.2) hk)
      have hsafe := (hall forks k hr 0 rest hcode (congrArg (·.2.2.1) hk)).1
      rw [show k.satp = 8 from congrArg Prod.fst hk, show k.dev.mtag 0 = 7 from congrArg (·.2.1) hk] at hsafe
      cases hsafe

end RiscvKernel.UserSpace
