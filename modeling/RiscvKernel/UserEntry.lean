import RiscvKernel.KernelTrap
import RiscvKernel.Lib.Rv64Priv

namespace RiscvKernel.UserEntry

open Lib.Rv64 TrapEntry TrapReturn
open Lib.Rv64Priv hiding run step

/-! User mode is entered by sret only: from _thread_finish_jump, and at the end of a trap. -/

abbrev t0 : Reg := 5
abbrev a2 : Reg := 12

/-- _thread_finish_jump up to its sret. -/
def threadFinishJump (umodeEntry : Word) : List PInstr :=
  [.base (.csrw .sscratch a0), .base (.la t6 umodeEntry), .base (.csrw .stvec t6), .base (.csrw .sepc a2),
    li t0 (1 <<< 8), .csrc .sstatus t0, li t0 (1 <<< 5), .csrs .sstatus t0, .base (.addi sp a1 0)]

def finishJump (umodeEntry : Word) (m : Machine) : Machine :=
  (Lib.Rv64Priv.run ⟨m, fun _ => 0⟩ (threadFinishJump umodeEntry)).core

section Code

variable {m : Machine}

theorem finishJump_spec (umodeEntry : Word) :
    let m' := finishJump umodeEntry m
    m'.get sp = m.get a1 ∧ m'.csr .sepc = m.get a2 ∧ m'.csr .sscratch = m.get a0 ∧ m'.csr .stvec = umodeEntry ∧
      m'.mem = m.mem ∧ (m'.csr .sstatus).getLsbD bitSpp = false ∧ (m'.csr .sstatus).getLsbD bitSpie = true := by
  have ht0 : t0 ≠ 0 := by decide
  have ht6 : t6 ≠ 0 := by decide
  have hsp : sp ≠ 0 := by decide
  have ha1 : a1 ≠ t0 ∧ a1 ≠ t6 := by decide
  have ha2 : a2 ≠ t6 := by decide
  have hspp : BitVec.ofInt 64 (1 <<< 8) = BitVec.twoPow 64 bitSpp := by decide
  have hspie : BitVec.ofInt 64 (1 <<< 5) = BitVec.twoPow 64 bitSpie := by decide
  have hzero : BitVec.ofInt 64 0 = 0 := rfl
  simp only [finishJump, threadFinishJump, Lib.Rv64Priv.run, List.foldl_cons, List.foldl_nil, Lib.Rv64Priv.step, step, li,
    get_zero, zero_add, hspp, hspie, hzero]
  refine ⟨?_, ?_, ?_, ?_, rfl, ?_, ?_⟩
  · simp only [get_set_self hsp, get_setCsr, get_set_ne ha1.1, get_set_ne ha1.2, add_zero]
  · simp only [csr_set, csr_setCsr_self, csr_setCsr_ne, ne_eq, reduceCtorEq, not_false_eq_true, get_setCsr,
      get_set_ne ha2]
  · simp only [csr_set, csr_setCsr_self, csr_setCsr_ne, ne_eq, reduceCtorEq, not_false_eq_true]
  · simp only [csr_set, csr_setCsr_self, csr_setCsr_ne, ne_eq, reduceCtorEq, not_false_eq_true, get_set_self ht6]
  · simp only [csr_set, csr_setCsr_self, get_setCsr, get_set_self ht0]
    rw [getLsbD_set_bit _ _ (by decide), getLsbD_clear_bit _ _ (by decide)]
    simp
  · simp only [csr_set, csr_setCsr_self, get_setCsr, get_set_self ht0]
    rw [getLsbD_set_bit _ _ (by decide)]
    simp

theorem exit_mem (umodeEntry : Word) : (run m (trapExitToUmode umodeEntry)).mem = m.mem := run_mem rfl

theorem entry_head_other {f a : Word} (hf : frameOf (m.csr .sscratch) = f) (h : ∀ k < 34, Apart a (word f k)) :
    (run m [.csrrw sp .sscratch sp, .addi sp sp (-34 * 8), .sd t6 (31 * 8) sp, .csrr t6 .sscratch,
      .sd t6 (2 * 8) sp]).load a = m.load a := by
  have hsp : sp ≠ 0 := by decide
  have hne : sp ≠ t6 := by decide
  have h31 := word_ofInt f (k := 31) (i := 31 * 8) rfl
  have h2 := word_ofInt f (k := 2) (i := 2 * 8) rfl
  have hframe : m.csr .sscratch + BitVec.ofInt 64 (-34 * 8) = f := by rw [← hf, frameOf]
  simp only [run, List.foldl_cons, List.foldl_nil, step, get_store, get_set_self hsp, get_set_ne hne, hframe, h31, h2]
  rw [load_store_of_apart (h 2 (by decide)), load_set, load_store_of_apart (h 31 (by decide)), load_set, load_set,
    load_setCsr]

/-- The entry writes nothing but the frame. -/
theorem entry_other (smodeEntry back : Word) {f a : Word} (hf : frameOf (m.csr .sscratch) = f)
    (h : ∀ k < 34, Apart a (word f k)) :
    (run m (trapEntryFromUmode smodeEntry back)).load a = m.load a := by
  obtain ⟨hsp₁, -⟩ := TrapReturn.entry_head (m := m)
  have hhead := entry_head_other hf h
  rw [hf] at hsp₁
  rw [trapEntryFromUmode, run_append, run_append, run_append]
  generalize run m
    [.csrrw sp .sscratch sp, .addi sp sp (-34 * 8), .sd t6 (31 * 8) sp, .csrr t6 .sscratch, .sd t6 (2 * 8) sp] = m₁
    at hsp₁ hhead ⊢
  have hsave := KernelTrap.saveGprs_other hsp₁ h
  obtain ⟨hsp₂, -⟩ := saveGprs_spec (m := m₁)
  rw [hsp₁] at hsp₂
  generalize run m₁ saveGprsExceptT6AndSp = m₂ at hsp₂ hsave ⊢
  have hcsrs := KernelTrap.saveSstatusAndSepc_other hsp₂ h
  generalize run m₂ saveSstatusAndSepc = m₃ at hcsrs ⊢
  exact hcsrs.trans (hsave.trans hhead)

end Code

/-- The processor, the thread that runs on it, whether it is in user mode with the pc it has
there, and the sp of the handler of the trap that each thread is in. -/
structure Cpu (ι : Type) where
  m : Machine
  pc : Word
  cur : ι
  user : Bool
  traps : ι → Option Word

section Run

variable {ι : Type} [DecidableEq ι] (umodeEntry smodeEntry back : Word) (anchor : ι → Word)

/-- What the hardware sets at a trap from user mode. -/
def atTrap (c : Cpu ι) (scause : Word) : Machine :=
  ((c.m.setCsr .sepc c.pc).setCsr .sstatus (trapStatus (c.m.csr .sstatus))).setCsr .scause scause

def trap (c : Cpu ι) (scause : Word) : Cpu ι :=
  let m := run (atTrap c scause) (trapEntryFromUmode smodeEntry back)
  ⟨m, c.pc, c.cur, false, Function.update c.traps c.cur (some (m.get sp))⟩

theorem trap_traps (c : Cpu ι) (scause : Word) : (trap smodeEntry back c scause).traps c.cur =
    some ((trap smodeEntry back c scause).m.get sp) := Function.update_self ..

/-- The running thread leaves the kernel by sret, for the mode that sstatus has. -/
def leave (c : Cpu ι) (m : Machine) : Cpu ι :=
  let (user, pc, m) := sret m
  ⟨m, pc, c.cur, user, Function.update c.traps c.cur none⟩

/-- Nothing is stored to the sstatus in the frame of a trap that has not returned. sysread does not
check its buffer, so that a program could have it store there. -/
def KeepsStatus (c : Cpu ι) (m : Machine) : Prop :=
  ∀ i f, c.traps i = some f → m.load (word f 32) = c.m.load (word f 32)

/-- A user program has any effect on its registers and its memory, the kernel on all of the
machine, as long as both keep the sstatus of the traps. -/
inductive Step (c : Cpu ι) : Cpu ι → Prop
  | user (m : Machine) (pc : Word) (hu : c.user = true) (hcsr : m.csr = c.m.csr) (hkeep : KeepsStatus c m) :
      Step c { c with m := m, pc := pc }
  | trap (scause : Word) (hu : c.user = true) (hstvec : c.m.csr .stvec = umodeEntry) :
      Step c (trap smodeEntry back c scause)
  | kernel (m : Machine) (hu : c.user = false) (hkeep : KeepsStatus c m) : Step c { c with m := m }
  | swtch (j : ι) (m : Machine) (hu : c.user = false) (hkeep : KeepsStatus c m) : Step c { c with m := m, cur := j }
  | sret {f : Word} (hu : c.user = false) (hf : c.traps c.cur = some f) (hsp : c.m.get sp = f) :
      Step c (leave c (run c.m (trapExitToUmode umodeEntry)))
  /-- thread_jump_to_user, which takes the anchor from the thread that tp points to; a program that
  has changed its tp could make that another one. -/
  | jump (hu : c.user = false) (hbase : c.m.get a0 = anchor c.cur) : Step c (leave c (finishJump umodeEntry c.m))

/-- User mode has interrupts on and is ready for the next trap. -/
def Unprivileged (c : Cpu ι) : Prop :=
  c.user = true ∧ (c.m.csr .sstatus).getLsbD bitSie = true ∧ c.m.csr .sscratch = anchor c.cur ∧
    c.m.csr .stvec = umodeEntry

structure Inv (c : Cpu ι) : Prop where
  user : c.user = true → Unprivileged umodeEntry anchor c
  traps : ∀ i f, c.traps i = some f → f = frameOf (anchor i) ∧
    (c.m.load (word f 32)).getLsbD bitSpp = false ∧ (c.m.load (word f 32)).getLsbD bitSpie = true

variable {umodeEntry smodeEntry back anchor} {c c' c₀ : Cpu ι}

theorem leave_unprivileged {m : Machine} (hspp : (m.csr .sstatus).getLsbD bitSpp = false)
    (hspie : (m.csr .sstatus).getLsbD bitSpie = true) (hsscratch : m.csr .sscratch = anchor c.cur)
    (hstvec : m.csr .stvec = umodeEntry) : Unprivileged umodeEntry anchor (leave c m) := by
  refine ⟨?_, ?_, ?_, ?_⟩
  · simp only [leave, sret, hspp, Bool.not_false]
  · simp only [leave, sret, csr_setCsr_self, (sretStatus_bits _).2, hspie]
  · exact (csr_setCsr_ne _ _ _ (by decide)).trans hsscratch
  · exact (csr_setCsr_ne _ _ _ (by decide)).trans hstvec

theorem jump_unprivileged (hbase : c.m.get a0 = anchor c.cur) :
    Unprivileged umodeEntry anchor (leave c (finishJump umodeEntry c.m)) := by
  obtain ⟨-, -, hsscratch, hstvec, -, hspp, hspie⟩ := finishJump_spec (m := c.m) umodeEntry
  exact leave_unprivileged hspp hspie (hsscratch.trans hbase) hstvec

theorem Inv.exit (hi : Inv umodeEntry anchor c) {f : Word} (hf : c.traps c.cur = some f) (hsp : c.m.get sp = f) :
    Unprivileged umodeEntry anchor (leave c (run c.m (trapExitToUmode umodeEntry))) := by
  obtain ⟨hcontext, hsscratch, hstvec⟩ := exit_spec (m := c.m) umodeEntry
  obtain ⟨hframe, hspp, hspie⟩ := hi.traps _ f hf
  have hsstatus : (run c.m (trapExitToUmode umodeEntry)).csr .sstatus = c.m.load (word (c.m.get sp) 32) :=
    congrArg Context.sstatus hcontext
  rw [hsp] at hsstatus hsscratch
  rw [hframe, frameOf_end] at hsscratch
  exact leave_unprivileged (by rw [hsstatus, hspp]) (by rw [hsstatus, hspie]) hsscratch hstvec

/-- A thread that leaves the kernel changes no frame. -/
theorem Inv.leave_traps (hi : Inv umodeEntry anchor c) {m : Machine} (hmem : m.mem = c.m.mem) (i : ι) (f : Word)
    (hf : (leave c m).traps i = some f) : f = frameOf (anchor i) ∧
      ((leave c m).m.load (word f 32)).getLsbD bitSpp = false ∧
      ((leave c m).m.load (word f 32)).getLsbD bitSpie = true := by
  have hload : ∀ a, (leave c m).m.load a = c.m.load a := load_of_mem hmem
  rw [hload]
  refine hi.traps i f ?_
  by_cases hcur : i = c.cur
  · rw [hcur, leave] at hf
    simp at hf
  · exact (Function.update_of_ne hcur _ _).symm.trans hf

omit [DecidableEq ι] in
theorem Inv.keep (hi : Inv umodeEntry anchor c) {m : Machine} (hkeep : KeepsStatus c m) (i : ι) (f : Word)
    (hf : c.traps i = some f) : f = frameOf (anchor i) ∧
      (m.load (word f 32)).getLsbD bitSpp = false ∧ (m.load (word f 32)).getLsbD bitSpie = true := by
  rw [hkeep i f hf]
  exact hi.traps i f hf

theorem Inv.step (hapart : ∀ i j, i ≠ j → KernelTrap.FramesApart (frameOf (anchor i)) (frameOf (anchor j)))
    (hi : Inv umodeEntry anchor c) (hs : Step umodeEntry smodeEntry back anchor c c') : Inv umodeEntry anchor c' := by
  cases hs with
  | user m pc hu hcsr hkeep =>
      obtain ⟨-, hsie, hsscratch, hstvec⟩ := hi.user hu
      exact ⟨fun _ => ⟨hu, hcsr ▸ hsie, hcsr ▸ hsscratch, hcsr ▸ hstvec⟩, hi.keep hkeep⟩
  | kernel m hu hkeep => exact ⟨fun hk => absurd (hu.symm.trans hk) (by decide), hi.keep hkeep⟩
  | swtch j m hu hkeep => exact ⟨fun hk => absurd (hu.symm.trans hk) (by decide), hi.keep hkeep⟩
  | sret hu hf hsp => exact ⟨fun _ => hi.exit hf hsp, hi.leave_traps (exit_mem umodeEntry)⟩
  | jump hu hbase =>
      obtain ⟨-, -, -, -, hmem, -⟩ := finishJump_spec (m := c.m) umodeEntry
      exact ⟨fun _ => jump_unprivileged hbase, hi.leave_traps hmem⟩
  | trap scause hu hstvec =>
      obtain ⟨-, hsie, hanchor, -⟩ := hi.user hu
      refine ⟨fun hk => absurd hk Bool.false_ne_true, fun i f hf => ?_⟩
      have hscratch : (atTrap c scause).csr .sscratch = anchor c.cur := hanchor
      obtain ⟨hsp, hframe⟩ := entry_spec (m := atTrap c scause) smodeEntry back
      rw [hscratch] at hsp hframe
      by_cases hcur : i = c.cur
      · rw [hcur, trap] at hf
        simp only [Function.update_self, Option.some.injEq, hsp] at hf
        have hstatus : (trap smodeEntry back c scause).m.load (word f 32) = trapStatus (c.m.csr .sstatus) := by
          rw [← hf]
          exact congrArg Context.sstatus hframe
        rw [hstatus, (trapStatus_bits _).1, (trapStatus_bits _).2, hsie, hcur]
        exact ⟨hf.symm, rfl, rfl⟩
      · have hf' : c.traps i = some f := (Function.update_of_ne hcur _ _).symm.trans hf
        obtain ⟨hi₁, hi₂⟩ := hi.traps i f hf'
        have hload : (trap smodeEntry back c scause).m.load (word f 32) = c.m.load (word f 32) := by
          refine entry_other (m := atTrap c scause) smodeEntry back (congrArg frameOf hscratch) fun k hk => ?_
          rw [hi₁]
          exact hapart i c.cur hcur 32 (by decide) k hk
        rw [hload]
        exact ⟨hi₁, hi₂⟩

theorem Inv.run (hapart : ∀ i j, i ≠ j → KernelTrap.FramesApart (frameOf (anchor i)) (frameOf (anchor j)))
    (hi : Inv umodeEntry anchor c₀) (hr : Relation.ReflTransGen (Step umodeEntry smodeEntry back anchor) c₀ c) :
    Inv umodeEntry anchor c := by
  induction hr with
  | refl => exact hi
  | tail _ hs ih => exact ih.step hapart hs

/-- In every run from the boot, with any traps, thread switches and programs started, that keeps the
sstatus in the frames of the traps and starts programs with the anchor of their thread: no sret at
the end of a trap or of _thread_finish_jump stays in supervisor mode, user mode always has
interrupts on and the anchor and the entry of its next trap, a program starts at upc with the stack
at usp, and every frame tells intr_handler that its trap is from user mode. -/
theorem user_mode_unprivileged (umodeEntry smodeEntry back : Word) (anchor : ι → Word) (c₀ c : Cpu ι)
    (hapart : ∀ i j, i ≠ j → KernelTrap.FramesApart (frameOf (anchor i)) (frameOf (anchor j)))
    (hboot : c₀.user = false) (hnone : ∀ i, c₀.traps i = none)
    (hr : Relation.ReflTransGen (Step umodeEntry smodeEntry back anchor) c₀ c) :
    (c.user = true → Unprivileged umodeEntry anchor c) ∧
    (∀ f, c.traps c.cur = some f → c.m.get sp = f →
      Unprivileged umodeEntry anchor (leave c (run c.m (trapExitToUmode umodeEntry)))) ∧
    (∀ usp upc, c.m.get a0 = anchor c.cur → c.m.get a1 = usp → c.m.get a2 = upc →
      Unprivileged umodeEntry anchor (leave c (finishJump umodeEntry c.m)) ∧
      (leave c (finishJump umodeEntry c.m)).pc = upc ∧ (leave c (finishJump umodeEntry c.m)).m.get sp = usp) ∧
    ∀ i f, c.traps i = some f → (c.m.load (word f 32)).getLsbD bitSpp = false := by
  have hi₀ : Inv umodeEntry anchor c₀ :=
    ⟨fun hu => absurd (hboot.symm.trans hu) (by decide),
      fun i f hf => absurd ((hnone i).symm.trans hf) (Option.some_ne_none f).symm⟩
  have hi := hi₀.run hapart hr
  refine ⟨hi.user, fun f => hi.exit, fun usp upc hbase husp hupc => ?_, fun i f hf => (hi.traps i f hf).2.1⟩
  obtain ⟨hsp, hsepc, -⟩ := finishJump_spec (m := c.m) umodeEntry
  exact ⟨jump_unprivileged hbase, hsepc.trans hupc, hsp.trans husp⟩

end Run

/-- A first program, behind its first system call. -/
theorem user_mode_unprivileged_firstCall :
    let c : Cpu Unit :=
      ⟨⟨fun r => if r = a0 then 0x80400ff0 else 0, fun _ => 0, fun _ => 0⟩, 0, (), false, fun _ => none⟩
    let c₂ := trap 0x200 0x300 (leave c (finishJump 0x100 c.m)) 8
    Unprivileged 0x100 (fun _ => 0x80400ff0) (leave c₂ (run c₂.m (trapExitToUmode 0x100))) := by
  obtain ⟨c, hc⟩ : ∃ c : Cpu Unit,
    c = ⟨⟨fun r => if r = a0 then 0x80400ff0 else 0, fun _ => 0, fun _ => 0⟩, 0, (), false, fun _ => none⟩ :=
    ⟨_, rfl⟩
  have hbase : c.m.get a0 = 0x80400ff0 := by
    rw [hc]
    rfl
  have hkernel : c.user = false := by rw [hc]
  have hnone : ∀ i, c.traps i = none := fun i => by rw [hc]
  rw [← hc]
  obtain ⟨c₁, hc₁⟩ : ∃ c₁, c₁ = leave c (finishJump 0x100 c.m) := ⟨_, rfl⟩
  have hjump : Unprivileged 0x100 (fun _ => 0x80400ff0) c₁ := hc₁ ▸ jump_unprivileged hbase
  have hr : Relation.ReflTransGen (Step 0x100 0x200 0x300 fun _ => 0x80400ff0) c (trap 0x200 0x300 c₁ 8) :=
    .tail (.single (hc₁ ▸ .jump hkernel hbase)) (.trap 8 hjump.1 hjump.2.2.2)
  have hapart : ∀ i j : Unit, i ≠ j → KernelTrap.FramesApart (frameOf 0x80400ff0) (frameOf 0x80400ff0) :=
    fun i j hij => absurd (Subsingleton.elim i j) hij
  obtain ⟨-, hexit, -⟩ := user_mode_unprivileged 0x100 0x200 0x300 (fun _ => 0x80400ff0) c _ hapart hkernel hnone hr
  dsimp only
  rw [← hc₁]
  exact hexit _ (trap_traps _ _ _ _) rfl

end RiscvKernel.UserEntry
