import RiscvKernel.CallReturn
import RiscvKernel.Uart
import RiscvKernel.Alarm
import RiscvKernel.DiskDriver

namespace RiscvKernel.InterruptState

open Thread Scheduler SchedulerInv StepFrame CallReturn
open Uart (UartDevice UartCall Lines uart uartDiscipline uart_obeys)
open Alarm (Timer AlarmCall timer timerDiscipline timer_obeys)
open DiskDriver (Disk DiskCall Device disk diskDiscipline disk_obeys)

variable {nthr : Nat}

section Rename

variable {ι ι' : Type} {d : Discipline ι} {d' : Discipline ι'} {f : ι → ι'} {g : Nat → Nat}

/-- A call of one driver as a call of the whole kernel, with its conditions renumbered. -/
def rename (f : ι → ι') (g : Nat → Nat) : Call ι → Call ι'
  | .threadSpawn page => .threadSpawn page
  | .threadExit => .threadExit
  | .threadYield => .threadYield
  | .threadJoin tid => .threadJoin tid
  | .threadJoinAny => .threadJoinAny
  | .conditionWait n => .conditionWait (g n)
  | .conditionBroadcast n => .conditionBroadcast (g n)
  | .intrDisable => .intrDisable
  | .intrEnable => .intrEnable
  | .dev i => .dev (f i)

/-- The discipline d is the part of d' for the calls f and the conditions g. -/
structure Part (d : Discipline ι) (d' : Discipline ι') (f : ι → ι') (g : Nat → Nat) : Prop where
  need : ∀ i b, d.need i b → d'.need (f i) b
  out : ∀ i b, d'.out (f i) b = d.out i b
  guarded : ∀ n, d'.guarded (g n) ↔ d.guarded n

theorem Part.needCall (h : Part d d' f g) {c : Call ι} {b : Bool} (hc : needCall d c b) : needCall d' (rename f g c) b := by
  cases c with
  | conditionWait n =>
      intro m hm hg
      cases hm
      exact hc n rfl ((h.guarded n).mp hg)
  | conditionBroadcast n =>
      intro m hm hg
      cases hm
      exact hc n rfl ((h.guarded n).mp hg)
  | dev i => exact h.need i b hc
  | _ => trivial

theorem Part.outCall (h : Part d d' f g) (c : Call ι) (b : Bool) :
    StepFrame.outCall d' (rename f g c) b = StepFrame.outCall d c b := by
  cases c with
  | dev i => exact h.out i b
  | _ => rfl

theorem Part.ends (h : Part d d' f g) {cs : List (Call ι)} {b b' : Bool} (hc : Ends d b (cs.map Pc.call) b') :
    Ends d' b ((cs.map (rename f g)).map Pc.call) b' := by
  induction cs generalizing b with
  | nil => exact hc
  | cons c cs ih =>
      refine ⟨h.needCall hc.1, hc.2.imp (fun hf => ?_) fun he => ?_⟩
      · cases c <;> first | cases hf; done | rfl
      · have := ih he
        rwa [outPc, ← h.outCall c b] at this

end Rename

section Sum

variable {σ₁ σ₂ ι₁ ι₂ ε₁ ε₂ : Type}

/-- Two drivers side by side; the first has the even conditions, the second the odd ones. -/
def both (cl₁ : Client σ₁ ι₁ ε₁) (cl₂ : Client σ₂ ι₂ ε₂) : Client (σ₁ × σ₂) (ι₁ ⊕ ι₂) (ε₁ ⊕ ε₂) where
  exec
    | .inl i, ctx, s =>
        let e := cl₁.exec i ctx s.1
        ⟨(e.dev, s.2), e.sie, e.satp, e.push.map (rename .inl (2 * ·))⟩
    | .inr i, ctx, s =>
        let e := cl₂.exec i ctx s.2
        ⟨(s.1, e.dev), e.sie, e.satp, e.push.map (rename .inr (2 * · + 1))⟩
  entry
    | .inl i, ctx, s => cl₁.entry i ctx s.1
    | .inr i, ctx, s => cl₂.entry i ctx s.2
  ownCond n := if n % 2 = 0 then cl₁.ownCond (n / 2) else cl₂.ownCond (n / 2)
  isr
    | .inl e, s => (((cl₁.isr e s.1).1, s.2), (cl₁.isr e s.1).2.map (2 * ·))
    | .inr e, s => ((s.1, (cl₂.isr e s.2).1), (cl₂.isr e s.2).2.map (2 * · + 1))
  env
    | .inl e, s => (cl₁.env e s.1, s.2)
    | .inr e, s => (s.1, cl₂.env e s.2)
  mtag s := cl₁.mtag s.1

def bothDiscipline (d₁ : Discipline ι₁) (d₂ : Discipline ι₂) : Discipline (ι₁ ⊕ ι₂) where
  need
    | .inl i => d₁.need i
    | .inr i => d₂.need i
  out
    | .inl i => d₁.out i
    | .inr i => d₂.out i
  guarded n := if n % 2 = 0 then d₁.guarded (n / 2) else d₂.guarded (n / 2)

theorem part_left (d₁ : Discipline ι₁) (d₂ : Discipline ι₂) : Part d₁ (bothDiscipline d₁ d₂) .inl (2 * ·) := by
  refine ⟨fun _ _ h => h, fun _ _ => rfl, fun n => ?_⟩
  simp [bothDiscipline]

theorem part_right (d₁ : Discipline ι₁) (d₂ : Discipline ι₂) : Part d₂ (bothDiscipline d₁ d₂) .inr (2 * · + 1) := by
  refine ⟨fun _ _ h => h, fun _ _ => rfl, fun n => ?_⟩
  have h₁ : ¬ (2 * n + 1) % 2 = 0 := by omega
  have h₂ : (2 * n + 1) / 2 = n := by omega
  simp only [bothDiscipline, if_neg h₁, h₂]

theorem both_obeys {cl₁ : Client σ₁ ι₁ ε₁} {cl₂ : Client σ₂ ι₂ ε₂} {d₁ : Discipline ι₁} {d₂ : Discipline ι₂}
    (h₁ : Obeys d₁ cl₁) (h₂ : Obeys d₂ cl₂) : Obeys (bothDiscipline d₁ d₂) (both cl₁ cl₂) := by
  refine ⟨fun i ctx s hneed => ?_, fun i ctx s he => ?_, fun n hn => ?_⟩
  · cases i with
    | inl i => exact (part_left d₁ d₂).ends (h₁.push i ctx s.1 hneed)
    | inr i => exact (part_right d₁ d₂).ends (h₂.push i ctx s.2 hneed)
  · cases i with
    | inl i => exact h₁.entry i ctx s.1 he
    | inr i => exact h₂.entry i ctx s.2 he
  · simp only [bothDiscipline] at hn
    simp only [both]
    split
    · rename_i h
      rw [if_pos h] at hn
      exact h₁.own _ hn
    · rename_i h
      rw [if_neg h] at hn
      exact h₂.own _ hn

end Sum

abbrev DriverState := (UartDevice × Timer) × Disk

abbrev DriverCall := (UartCall ⊕ AlarmCall) ⊕ DiskCall

abbrev DriverEvent := (Lines ⊕ Nat) ⊕ Device

def drivers : Client DriverState DriverCall DriverEvent := both (both uart timer) (disk false)

def driversDiscipline : Discipline DriverCall :=
  bothDiscipline (bothDiscipline uartDiscipline timerDiscipline) diskDiscipline

theorem drivers_obeys : Obeys driversDiscipline drivers := both_obeys (both_obeys uart_obeys timer_obeys) (disk_obeys false)

/-- The functions of the drivers, as opposed to the places inside them. -/
def isFunction : DriverCall → Bool
  | .inl (.inl (.uartRead _)) | .inl (.inl (.uartWrite _)) | .inl (.inr .alarmInit) | .inl (.inr .alarmReset)
  | .inl (.inr (.alarmSleep _)) | .inr (.vioblkRead _) | .inr (.vioblkWrite _) | .inr (.vioblkSetpos _)
  | .inr (.fsRead _ _ _) | .inr (.fsWrite _ _ _ _) => true
  | _ => false

/-- What the handler of a system call may call. -/
def isCall : Call DriverCall → Bool
  | .dev i => isFunction i
  | .conditionWait n | .conditionBroadcast n => !drivers.ownCond n
  | .intrDisable | .intrEnable => false
  | _ => true

/-- The functions that have to return with SIE as they found it. -/
def measured : Call DriverCall → Bool
  | .conditionWait _ | .conditionBroadcast _ | .threadYield | .dev (.inl (.inr (.alarmSleep _)))
  | .dev (.inr (.vioblkRead _)) | .dev (.inr (.vioblkWrite _)) | .dev (.inl (.inl (.uartRead _)))
  | .dev (.inl (.inl (.uartWrite _))) => true
  | _ => false

/-- Not a uart_read or uart_write that has something to do and is called with SIE = 0. -/
def keepsSie : Call DriverCall → Bool → Bool
  | .dev (.inl (.inl (.uartRead bufsz))), sie => bufsz = 0 || sie
  | .dev (.inl (.inl (.uartWrite buf))), sie => buf.isEmpty || sie
  | _, _ => true

/-- A function of a driver, and a trap from user mode with the calls its handler makes: its
start in _trap_entry_from_umode and the switch of stvec and sscratch at its end. -/
inductive KernelCall
  | driver (i : DriverCall)
  | trapEntry (cs : List (Call DriverCall))
  | trapExit (cs : List (Call DriverCall))

abbrev lift : Call DriverCall → Call KernelCall := rename .driver id

def kernelExec : KernelCall → Ctx → DriverState → Effect DriverState KernelCall
  | .driver i, ctx, s =>
      let e := drivers.exec i ctx s
      ⟨e.dev, e.sie, e.satp, e.push.map lift⟩
  | .trapEntry cs, ctx, s => ⟨s, false, ctx.satp, cs.map lift ++ [.dev (.trapExit cs)]⟩
  | .trapExit _, ctx, s => ⟨s, true, ctx.satp, []⟩

/-- Threads in the kernel and in user mode, where interrupts are always taken. -/
def kernel : Client DriverState KernelCall DriverEvent where
  exec := kernelExec
  entry
    | .driver i, _, _ => isFunction i
    | .trapEntry cs, _, _ => cs.all isCall
    | .trapExit _, _, _ => false
  ownCond := drivers.ownCond
  isr := drivers.isr
  env := drivers.env
  mtag := drivers.mtag

/-- SIE after calls that start with SIE = sie. -/
def sieAfter (cs : List (Call DriverCall)) (sie : Bool) : Bool := cs.foldl (fun b c => outCall driversDiscipline c b) sie

def kernelDiscipline : Discipline KernelCall where
  need
    | .driver i, b => driversDiscipline.need i b
    | .trapEntry cs, _ => ∀ c ∈ cs, isCall c = true
    | .trapExit cs, b => (∀ c ∈ cs, isCall c = true) ∧ b = sieAfter cs false
  out
    | .driver i, b => driversDiscipline.out i b
    | .trapEntry _, _ | .trapExit _, _ => true
  guarded := driversDiscipline.guarded

theorem part_kernel : Part driversDiscipline kernelDiscipline .driver id :=
  ⟨fun _ _ h => h, fun _ _ => rfl, fun _ => Iff.rfl⟩

theorem need_of_isFunction {i : DriverCall} (hi : isFunction i = true) (b : Bool) : driversDiscipline.need i b := by
  rcases i with (i | i) | i <;> cases i <;> trivial

theorem needCall_of_isCall {c : Call DriverCall} (hc : isCall c = true) (b : Bool) : needCall driversDiscipline c b := by
  cases c with
  | conditionWait n =>
      intro m hm hg
      cases hm
      simp [isCall, drivers_obeys.own n hg] at hc
  | conditionBroadcast n =>
      intro m hm hg
      cases hm
      simp [isCall, drivers_obeys.own n hg] at hc
  | dev i => exact need_of_isFunction hc b
  | _ => trivial

theorem ends_calls {cs : List (Call DriverCall)} (hcs : ∀ c ∈ cs, isCall c = true) (b : Bool) :
    Ends driversDiscipline b (cs.map Pc.call) (sieAfter cs b) := by
  induction cs generalizing b with
  | nil => rfl
  | cons c cs ih =>
      exact ⟨needCall_of_isCall (hcs c List.mem_cons_self) b, .inr (ih (fun c hc => hcs c (List.mem_cons_of_mem _ hc)) _)⟩

theorem kernel_obeys : Obeys kernelDiscipline kernel := by
  refine ⟨fun i ctx s hneed => ?_, fun i ctx s he => ?_, drivers_obeys.own⟩
  · cases i with
    | driver i => exact part_kernel.ends (drivers_obeys.push i ctx s hneed)
    | trapEntry cs =>
        simp only [kernel, kernelExec, List.map_append]
        exact (part_kernel.ends (ends_calls hneed false)).append ⟨⟨hneed, rfl⟩, .inr rfl⟩
    | trapExit cs => rfl
  · cases i with
    | driver i => exact need_of_isFunction he _
    | trapEntry cs => exact List.all_eq_true.mp he
    | trapExit cs => cases he

theorem outCall_eq {c : Call DriverCall} (hdev : ∀ i, c = .dev i → isFunction i = true) (hdis : c ≠ .intrDisable)
    (hen : c ≠ .intrEnable) (b : Bool) : outCall driversDiscipline c b = (b || !keepsSie c b) := by
  cases c with
  | dev i =>
      have hi := hdev i rfl
      rcases i with (i | i) | i
      · cases i with
        | uartRead bufsz =>
            by_cases hz : bufsz = 0 <;> cases b <;>
              simp [outCall, driversDiscipline, bothDiscipline, uartDiscipline, keepsSie, hz]
        | uartWrite buf =>
            cases buf <;> cases b <;> simp [outCall, driversDiscipline, bothDiscipline, uartDiscipline, keepsSie]
        | _ => cases hi
      · cases i <;> first | cases hi; done | simp [outCall, driversDiscipline, bothDiscipline, timerDiscipline, keepsSie]
      · cases i <;> first | cases hi; done | simp [outCall, driversDiscipline, bothDiscipline, diskDiscipline, keepsSie]
  | intrDisable => exact absurd rfl hdis
  | intrEnable => exact absurd rfl hen
  | _ => simp [outCall, keepsSie]

theorem outCall_of_isCall {c : Call DriverCall} (hc : isCall c = true) (b : Bool) :
    outCall driversDiscipline c b = (b || !keepsSie c b) := by
  refine outCall_eq (fun i hi => ?_) (fun h => ?_) (fun h => ?_) b
  · rw [hi] at hc
    exact hc
  · rw [h] at hc
    cases hc
  · rw [h] at hc
    cases hc

theorem outCall_of_measured {c : Call DriverCall} (hc : measured c = true) (b : Bool) :
    outCall driversDiscipline c b = (b || !keepsSie c b) := by
  refine outCall_eq (fun i hi => ?_) (fun h => ?_) (fun h => ?_) b
  · subst hi
    rcases i with (i | i) | i <;> cases i <;> first | rfl | cases hc
  · rw [h] at hc
    cases hc
  · rw [h] at hc
    cases hc

theorem sieAfter_eq {cs : List (Call DriverCall)} (hcs : ∀ c ∈ cs, isCall c = true) (b : Bool) :
    sieAfter cs b = (b || !cs.all (keepsSie · false)) := by
  induction cs generalizing b with
  | nil => simp [sieAfter]
  | cons c cs ih =>
      have hstep : sieAfter (c :: cs) b = sieAfter cs (b || !keepsSie c b) := by
        rw [sieAfter, List.foldl_cons, outCall_of_isCall (hcs c List.mem_cons_self)]
        rfl
      rw [hstep, ih (fun c hc => hcs c (List.mem_cons_of_mem _ hc)), List.all_cons]
      cases b <;> cases keepsSie c false <;> simp

theorem keepsSie_true (c : Call DriverCall) : keepsSie c true = true := by
  unfold keepsSie
  split <;> simp

theorem typed_run (hn : 2 ≤ nthr) (dev : DriverState) (satp : Nat) (sie : Bool) {ls : List (Label KernelCall DriverEvent)}
    {k : Kernel DriverState KernelCall} (hr : run kernel nthr (threadInit nthr dev satp sie) ls = .ok k) :
    Typed nthr kernelDiscipline k :=
  run_along (P := Typed nthr kernelDiscipline) (fun _ _ _ ht _ hs => ht.step kernel_obeys hs)
    (typed_threadInit hn kernelDiscipline dev satp sie) (along_of_forall kernel (fun _ _ => rfl) _ ls) hr

/-- In every reachable state a call returns with SIE as it was if and only if it is not a
uart_read or uart_write with something to do that is called with SIE = 0, and a system call
without such calls, and no other, comes to its end with SIE = 0. -/
theorem run_sie_iff (hn : 2 ≤ nthr) (dev : DriverState) (satp : Nat) (sie : Bool)
    (ls : List (Label KernelCall DriverEvent)) (k : Kernel DriverState KernelCall)
    (hr : run kernel nthr (threadInit nthr dev satp sie) ls = .ok k) :
    (∀ c K ls' k', measured c = true → k.code k.tp = .call (lift c) :: K → Returns kernel nthr k.tp K k ls' k' →
      (k'.sie = k.sie ↔ keepsSie c k.sie = true)) ∧
    ∀ cs K, k.code k.tp = .call (.dev (.trapExit cs)) :: K → (k.sie = false ↔ cs.all (keepsSie · false) = true) := by
  have ht := typed_run hn dev satp sie hr
  refine ⟨fun c K ls' k' hc hcode hret => ?_, fun cs K hcode => ?_⟩
  · rw [sie_of_returns kernel_obeys ht hcode hret, part_kernel.outCall, outCall_of_measured hc]
    cases hsie : k.sie with
    | false => simp
    | true => simp [keepsSie_true]
  · obtain ⟨hcs, he⟩ : (∀ c ∈ cs, isCall c = true) ∧ k.sie = sieAfter cs false := ht.need hcode
    rw [he, sieAfter_eq hcs]
    simp

def idleDrivers : DriverState :=
  ((Uart.uartOpen Uart.blankDevice, Alarm.timerInit fun _ => 0), DiskDriver.attached 1024 fun _ => Kfs.FileDesc.zero)

abbrev booted : Kernel DriverState KernelCall := threadInit 16 idleDrivers 0 true

/-- A system call that yields once. -/
def yieldCall : List (Label KernelCall DriverEvent) :=
  .call (.dev (.trapEntry [.threadYield])) :: List.replicate 18 .run

def atExit : List (Pc KernelCall) → Bool
  | [.call (.dev (.trapExit [.threadYield]))] => true
  | _ => false

theorem run_sie_iff_yieldCall : ∃ k, run kernel 16 booted yieldCall = .ok k ∧
    k.code k.tp = [.call (.dev (.trapExit [.threadYield]))] ∧ k.sie = false := by
  have hview : ((run kernel 16 booted yieldCall).toOption.map fun k => atExit (k.code k.tp)) = some true := by decide +kernel
  cases hr : run kernel 16 booted yieldCall with
  | error s =>
      rw [hr] at hview
      cases hview
  | ok k =>
      rw [hr] at hview
      have hcode : k.code k.tp = [.call (.dev (.trapExit [.threadYield]))] := by
        have hexit : atExit (k.code k.tp) = true := Option.some.inj hview
        unfold atExit at hexit
        split at hexit
        · assumption
        · cases hexit
      exact ⟨k, rfl, hcode, ((run_sie_iff (by decide) idleDrivers 0 true yieldCall k hr).2 _ _ hcode).mpr rfl⟩

abbrev uartReadOne : Call DriverCall := .dev (.inl (.inl (.uartRead 1)))

/-- A byte arrives; the main thread disables interrupts and calls uart_read. -/
def readMasked : List (Label KernelCall DriverEvent) :=
  [.isr (.inl (.inl ⟨Uart.lsrDr, 66⟩)), .call .intrDisable, .run, .call (lift uartReadOne)]

def atRead : List (Pc KernelCall) → Bool
  | [.call (.dev (.driver (.inl (.inl (.uartRead 1)))))] => true
  | _ => false

theorem uartRead_enables_interrupts : ¬ ∀ ls k, run kernel 16 booted ls = .ok k → ∀ c K ls' k', measured c = true →
    k.code k.tp = .call (lift c) :: K → Returns kernel 16 k.tp K k ls' k' → k'.sie = k.sie := by
  intro hall
  have hbefore : ((run kernel 16 booted readMasked).toOption.map fun k => (k.tp, k.sie, atRead (k.code k.tp))) =
      some (mainThread, false, true) := by decide +kernel
  have hafter : ((run kernel 16 booted readMasked >>= fun k => run kernel 16 k (List.replicate 10 .run)).toOption.map fun k =>
      (k.sie, (k.code mainThread).isEmpty)) = some (true, true) := by decide +kernel
  have hbusy : ((run kernel 16 booted readMasked).toOption.map fun k =>
      along kernel 16 (fun k _ => !(k.code mainThread).isEmpty) k (List.replicate 10 .run)) = some true := by decide +kernel
  cases hr : run kernel 16 booted readMasked with
  | error s =>
      rw [hr] at hbefore
      cases hbefore
  | ok k =>
      rw [hr] at hbefore hafter hbusy
      have hk : (k.tp, k.sie, atRead (k.code k.tp)) = (mainThread, false, true) := Option.some.inj hbefore
      have htp : k.tp = mainThread := congrArg Prod.fst hk
      have hsie : k.sie = false := congrArg (·.2.1) hk
      have hcode : k.code k.tp = [.call (lift uartReadOne)] := by
        have hread : atRead (k.code k.tp) = true := congrArg (·.2.2) hk
        unfold atRead at hread
        split at hread
        · assumption
        · cases hread
      have hbind : (Except.ok k >>= fun k => run kernel 16 k (List.replicate 10 .run)) =
          run kernel 16 k (List.replicate 10 .run) := rfl
      rw [hbind] at hafter
      cases hr' : run kernel 16 k (List.replicate 10 .run) with
      | error s =>
          rw [hr'] at hafter
          cases hafter
      | ok k' =>
          rw [hr'] at hafter
          have hk' : (k'.sie, (k'.code mainThread).isEmpty) = (true, true) := Option.some.inj hafter
          have hret : Returns kernel 16 k.tp [] k (List.replicate 10 .run) k' := by
            rw [htp]
            exact returns_nil (Option.some.inj hbusy) hr' (List.isEmpty_iff.mp (congrArg Prod.snd hk'))
          have he := hall readMasked k hr uartReadOne [] _ k' rfl hcode hret
          rw [hsie, show k'.sie = true from congrArg Prod.fst hk'] at he
          cases he

end RiscvKernel.InterruptState
