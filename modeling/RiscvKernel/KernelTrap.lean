import RiscvKernel.TrapReturn

namespace RiscvKernel.KernelTrap

open Lib.Rv64 TrapEntry TrapReturn

/-! Traps in the kernel. -/

/-- _trap_entry_from_smode up to its call of trap_smode_cont; back is the address behind it. -/
def trapEntryFromSmode (back : Word) : List Instr :=
  ([.addi sp sp (-34 * 8), .sd t6 (31 * 8) sp, .addi t6 sp (34 * 8), .sd t6 (2 * 8) sp] : List Instr) ++
    saveGprsExceptT6AndSp ++ saveSstatusAndSepc ++ ([.link ra back] : List Instr)

/-- The same behind the call, up to its sret. -/
def trapExitToSmode : List Instr :=
  restoreSstatusAndSepc ++ restoreGprsExceptT6AndSp ++ ([.ld t6 (31 * 8) sp, .ld sp (2 * 8) sp] : List Instr)

inductive Handler
  | smodeExcpHandler
  | intrHandler

/-- trap_smode_cont is the code of trap_umode_cont with another handler for exceptions. -/
def enterHandler (back : Word) (m : Machine) : Handler × Machine :=
  let m := run m (trapEntryFromSmode back ++ trapUmodeCont)
  if (m.get a0).msb then (.intrHandler, run m clearMsb) else (.smodeExcpHandler, m)

section Code

variable {m : Machine}

theorem entry_head :
    let h := run m [.addi sp sp (-34 * 8), .sd t6 (31 * 8) sp, .addi t6 sp (34 * 8), .sd t6 (2 * 8) sp]
    h.get sp = frameOf (m.get sp) ∧ (∀ r, r ≠ sp → r ≠ t6 → h.get r = m.get r) ∧ h.csr = m.csr ∧
      h.load (word (frameOf (m.get sp)) 31) = m.get t6 ∧ h.load (word (frameOf (m.get sp)) 2) = m.get sp := by
  have hsp : sp ≠ 0 := by decide
  have ht6 : t6 ≠ 0 := by decide
  have hne : sp ≠ t6 := by decide
  obtain ⟨f, hf⟩ : ∃ f, f = frameOf (m.get sp) := ⟨_, rfl⟩
  have hapart := apart_word (b := f) (j := 31) (k := 2) (by decide) (by decide) (by decide)
  have h31 := word_ofInt f (k := 31) (i := 31 * 8) rfl
  have h2 := word_ofInt f (k := 2) (i := 2 * 8) rfl
  have hframe : m.get sp + BitVec.ofInt 64 (-34 * 8) = f := by rw [hf, frameOf]
  have hend : f + BitVec.ofInt 64 (34 * 8) = m.get sp := by rw [hf, frameOf_end]
  rw [← hf]
  simp only [run, List.foldl_cons, List.foldl_nil, step, get_store, get_set_self hsp, get_set_self ht6, get_set_ne hne,
    get_set_ne (Ne.symm hne), hframe, hend, h31, h2]
  refine ⟨trivial, fun r hr hr' => ?_, rfl, ?_, load_store⟩
  · rw [get_set_ne hr', get_store, get_set_ne hr]
  · rw [load_store_of_apart hapart, load_set, load_store]

/-- The entry leaves all that the interrupted code has in the frame below its sp. -/
theorem entry_spec (back : Word) :
    let m' := run m (trapEntryFromSmode back)
    m'.get sp = frameOf (m.get sp) ∧ trapFrame m' (frameOf (m.get sp)) = context m := by
  obtain ⟨hsp, hget, hcsr, h31, h2⟩ := entry_head (m := m)
  rw [trapEntryFromSmode, run_append, run_append, run_append]
  generalize run m [.addi sp sp (-34 * 8), .sd t6 (31 * 8) sp, .addi t6 sp (34 * 8), .sd t6 (2 * 8) sp] = m₁
    at hsp hget hcsr h31 h2 ⊢
  obtain ⟨hsp₂, hcsr₂, hslots, hkept⟩ := saveGprs_spec (m := m₁)
  generalize run m₁ saveGprsExceptT6AndSp = m₂ at hsp₂ hcsr₂ hslots hkept ⊢
  obtain ⟨hsp₃, hsstatus, hsepc, hkept₃⟩ := saveSstatusAndSepc_spec (m := m₂)
  generalize run m₂ saveSstatusAndSepc = m₃ at hsp₃ hsstatus hsepc hkept₃ ⊢
  have hf := hsp₂.trans hsp
  rw [hf] at hsp₃ hsstatus hsepc hkept₃
  rw [hsp] at hslots hkept
  have hlast : ∀ a, (run m₃ [.link ra back]).load a = m₃.load a := fun a => rfl
  refine ⟨?_, ?_⟩
  · rw [run_get rfl, hsp₃]
  · rw [trapFrame, context, hlast, hlast, hsstatus, hsepc, hcsr₂, hcsr]
    congr 1
    funext r
    by_cases h₀ : r = 0
    · rw [if_pos h₀, Machine.get, if_pos h₀]
    · rw [if_neg h₀, hlast, hkept₃ _ r.isLt]
      by_cases hr : r = sp ∨ r = t6
      · rw [hkept r hr]
        rcases hr with rfl | rfl
        · exact h2
        · exact h31
      · obtain ⟨hr₁, hr₂⟩ := not_or.mp hr
        rw [hslots r h₀ hr₁ hr₂, hget r hr₁ hr₂]

/-- An interrupt gets to intr_handler with its code and the frame. -/
theorem enterHandler_interrupt (back : Word) (hmsb : (m.csr .scause).msb = true) {f : Word} (hf : frameOf (m.get sp) = f) :
    (enterHandler back m).1 = .intrHandler ∧ (enterHandler back m).2.get a0 = m.csr .scause <<< 1 >>> 1 ∧
      (enterHandler back m).2.get a1 = f ∧ trapFrame (enterHandler back m).2 f = context m := by
  obtain ⟨hsp, hframe⟩ := entry_spec (m := m) back
  have hscause : (run m (trapEntryFromSmode back)).csr .scause = m.csr .scause := run_csr rfl
  rw [hf] at hsp hframe
  obtain ⟨hneg, hspec⟩ := cont_interrupt hsp hframe hscause hmsb
  rw [enterHandler, run_append]
  simp only [hneg, if_true, true_and]
  exact hspec

theorem entry_head_other {f a : Word} (hf : m.get sp + BitVec.ofInt 64 (-34 * 8) = f) (h : ∀ k < 34, Apart a (word f k)) :
    (run m [.addi sp sp (-34 * 8), .sd t6 (31 * 8) sp, .addi t6 sp (34 * 8), .sd t6 (2 * 8) sp]).load a = m.load a := by
  have hsp : sp ≠ 0 := by decide
  have hne : sp ≠ t6 := by decide
  have h31 := word_ofInt f (k := 31) (i := 31 * 8) rfl
  have h2 := word_ofInt f (k := 2) (i := 2 * 8) rfl
  simp only [run, List.foldl_cons, List.foldl_nil, step, get_store, get_set_self hsp, get_set_ne hne, hf, h31, h2]
  rw [load_store_of_apart (h 2 (by decide)), load_set, load_store_of_apart (h 31 (by decide)), load_set]

theorem saveSstatusAndSepc_other {f a : Word} (hf : m.get sp = f) (h : ∀ k < 34, Apart a (word f k)) :
    (run m saveSstatusAndSepc).load a = m.load a := by
  have hne : sp ≠ t6 := by decide
  have h32 := word_ofInt f (k := 32) (i := 32 * 8) rfl
  have h33 := word_ofInt f (k := 33) (i := 33 * 8) rfl
  simp only [saveSstatusAndSepc, run, List.foldl_cons, List.foldl_nil, step, get_store, get_set_ne hne, hf, h32, h33]
  rw [load_store_of_apart (h 33 (by decide)), load_set, load_store_of_apart (h 32 (by decide)), load_set]

theorem saveGprs_other {f a : Word} (hf : m.get sp = f) (h : ∀ k < 34, Apart a (word f k)) :
    (run m saveGprsExceptT6AndSp).load a = m.load a := by
  rw [save_eq]
  refine run_stores_apart fun s hs => ?_
  rw [gprSlots_mem hs, hf]
  exact h _ (Nat.lt_trans s.1.isLt (by decide))

/-- The entry writes nothing but the frame. -/
theorem entry_other (back : Word) {f a : Word} (hf : frameOf (m.get sp) = f) (h : ∀ k < 34, Apart a (word f k)) :
    (run m (trapEntryFromSmode back)).load a = m.load a := by
  obtain ⟨hsp₁, -⟩ := entry_head (m := m)
  have hhead := entry_head_other hf h
  rw [hf] at hsp₁
  rw [trapEntryFromSmode, run_append, run_append, run_append]
  generalize run m [.addi sp sp (-34 * 8), .sd t6 (31 * 8) sp, .addi t6 sp (34 * 8), .sd t6 (2 * 8) sp] = m₁ at hsp₁ hhead ⊢
  have hsave := saveGprs_other hsp₁ h
  obtain ⟨hsp₂, -⟩ := saveGprs_spec (m := m₁)
  rw [hsp₁] at hsp₂
  generalize run m₁ saveGprsExceptT6AndSp = m₂ at hsp₂ hsave ⊢
  have hcsrs := saveSstatusAndSepc_other hsp₂ h
  generalize run m₂ saveSstatusAndSepc = m₃ at hcsrs ⊢
  exact hcsrs.trans (hsave.trans hhead)

/-- The exit takes all of it from the frame. -/
theorem exit_spec : context (run m trapExitToSmode) = trapFrame m (m.get sp) ∧ (run m trapExitToSmode).mem = m.mem := by
  rw [trapExitToSmode, run_append, run_append]
  obtain ⟨hmem₂, hsp₂, hsstatus, hsepc, -⟩ := restoreSstatusAndSepc_spec (m := m)
  generalize run m restoreSstatusAndSepc = m₂ at hmem₂ hsp₂ hsstatus hsepc ⊢
  obtain ⟨hmem₃, hcsr₃, hsp₃, hget₃⟩ := restoreGprs_spec (m := m₂)
  generalize run m₂ restoreGprsExceptT6AndSp = m₃ at hmem₃ hcsr₃ hsp₃ hget₃ ⊢
  have hsp : sp ≠ 0 := by decide
  have ht6 : t6 ≠ 0 := by decide
  have hne : sp ≠ t6 := by decide
  have hf₃ : m₃.get sp = m.get sp := hsp₃.trans hsp₂
  have hload₂ : ∀ a, m₂.load a = m.load a := load_of_mem hmem₂
  have hload₃ : ∀ a, m₃.load a = m.load a := load_of_mem (hmem₃.trans hmem₂)
  have h31 := word_ofInt (m.get sp) (k := 31) (i := 31 * 8) rfl
  have h2 := word_ofInt (m.get sp) (k := 2) (i := 2 * 8) rfl
  simp only [run, List.foldl_cons, List.foldl_nil, step, get_set_ne hne, load_set, hf₃, h31, h2, hload₃, mem_set]
  refine ⟨?_, hmem₃.trans hmem₂⟩
  rw [context, trapFrame, csr_set, csr_set, csr_set, csr_set, hcsr₃, hsstatus, hsepc]
  congr 1
  funext r
  by_cases h₀ : r = 0
  · rw [if_pos h₀, Machine.get, if_pos h₀]
  · rw [if_neg h₀]
    by_cases hr : r = sp
    · rw [hr, get_set_self hsp]
      rfl
    · rw [get_set_ne hr]
      by_cases hr' : r = t6
      · rw [hr', get_set_self ht6]
        rfl
      · rw [get_set_ne hr', hget₃ r h₀ hr hr', hload₂, hsp₂]

end Code

/-- A trap whose handler has not returned: what it interrupted, and the sp of the handler. -/
structure Trap where
  interrupted : Context
  sp : Word

/-- The processor in supervisor mode, the running thread and the traps each thread is in, the last
one first. -/
structure Kernel (ι : Type) where
  m : Machine
  cur : ι
  traps : ι → List Trap

/-- The words of two frames have no byte in common. -/
def FramesApart (f g : Word) : Prop := ∀ j < 34, ∀ k < 34, Apart (word f j) (word g k)

section Run

variable {ι : Type} [DecidableEq ι] (back : Word)

/-- A trap, up to the call of its handler. -/
def trap (h : Kernel ι) (sepc sstatus scause : Word) : Kernel ι :=
  let m := atTrap h.m sepc sstatus scause
  ⟨run m (trapEntryFromSmode back), h.cur, Function.update h.traps h.cur (⟨context m, frameOf (h.m.get sp)⟩ :: h.traps h.cur)⟩

theorem trap_traps (h : Kernel ι) (sepc sstatus scause : Word) : (trap back h sepc sstatus scause).traps h.cur =
    ⟨context (atTrap h.m sepc sstatus scause), frameOf (h.m.get sp)⟩ :: h.traps h.cur := Function.update_self ..

theorem trap_other (h : Kernel ι) (sepc sstatus scause : Word) {i : ι} (hi : i ≠ h.cur) :
    (trap back h sepc sstatus scause).traps i = h.traps i := Function.update_of_ne hi ..

theorem trap_sp (h : Kernel ι) (sepc sstatus scause : Word) :
    (trap back h sepc sstatus scause).m.get sp = frameOf (h.m.get sp) :=
  (entry_spec (m := atTrap h.m sepc sstatus scause) back).1

/-- Kernel code has any effect but on the frames of traps, and a trap finds the stack of its
thread below them. -/
inductive Step (h : Kernel ι) : Kernel ι → Prop
  | code (m : Machine) (hmem : ∀ i, ∀ t ∈ h.traps i, ∀ k < 34, m.load (word t.sp k) = h.m.load (word t.sp k)) :
      Step h { h with m := m }
  | swtch (j : ι) (m : Machine) (hmem : ∀ i, ∀ t ∈ h.traps i, ∀ k < 34, m.load (word t.sp k) = h.m.load (word t.sp k)) :
      Step h { h with m := m, cur := j }
  | trap (sepc sstatus scause : Word) (hstack : ∀ i, ∀ t ∈ h.traps i, FramesApart t.sp (frameOf (h.m.get sp))) :
      Step h (trap back h sepc sstatus scause)
  | sret {t : Trap} {ts : List Trap} (ht : h.traps h.cur = t :: ts) (hsp : h.m.get sp = t.sp) :
      Step h ⟨run h.m trapExitToSmode, h.cur, Function.update h.traps h.cur ts⟩

/-- Each frame has what its trap interrupted. -/
def Inv (h : Kernel ι) : Prop := ∀ i, ∀ t ∈ h.traps i, trapFrame h.m t.sp = t.interrupted

theorem trapFrame_congr {m m' : Machine} {f : Word} (h : ∀ k < 34, m'.load (word f k) = m.load (word f k)) :
    trapFrame m' f = trapFrame m f := by
  rw [trapFrame, trapFrame, h 32 (by decide), h 33 (by decide)]
  congr 1
  funext r
  rw [h r.val (by omega)]

variable {back} {h h' h₀ : Kernel ι}

theorem Inv.step (hi : Inv h) (hs : Step back h h') : Inv h' := by
  cases hs with
  | code m hmem | swtch j m hmem => exact fun i t ht => (trapFrame_congr (hmem i t ht)).trans (hi i t ht)
  | trap sepc sstatus scause hstack =>
      intro i t ht
      have hold : ∀ i, ∀ t ∈ h.traps i, trapFrame (run (atTrap h.m sepc sstatus scause) (trapEntryFromSmode back)) t.sp =
          t.interrupted := by
        intro i t ht
        refine (trapFrame_congr fun k hk => ?_).trans (hi i t ht)
        exact entry_other (m := atTrap h.m sepc sstatus scause) back rfl fun j hj => hstack i t ht k hk j hj
      by_cases hcur : i = h.cur
      · rw [hcur, trap_traps, List.mem_cons] at ht
        rcases ht with rfl | ht
        · exact (entry_spec (m := atTrap h.m sepc sstatus scause) back).2
        · exact hold _ _ ht
      · rw [trap_other back h sepc sstatus scause hcur] at ht
        exact hold i t ht
  | sret ht hsp =>
      intro i t' ht'
      refine (trapFrame_congr fun k _ => load_of_mem exit_spec.2 _).trans (hi i t' ?_)
      by_cases hcur : i = h.cur
      · rw [hcur] at ht' ⊢
        rw [ht]
        exact List.mem_cons_of_mem _ (by simpa using ht')
      · simpa [hcur] using ht'

theorem Inv.run (hi : Inv h₀) (hr : Relation.ReflTransGen (Step back) h₀ h) : Inv h := by
  induction hr with
  | refl => exact hi
  | tail _ hs ih => exact ih.step hs

/-- However traps in the kernel nest and threads switch between them, a handler that returns with
its sp gives back every register of what it interrupted, with the sstatus and the sepc of the
trap, and writes nothing on the way out. -/
theorem kernel_traps_transparent (back : Word) (h₀ h : Kernel ι) (hnone : ∀ i, h₀.traps i = [])
    (hr : Relation.ReflTransGen (Step back) h₀ h) (t : Trap) (ts : List Trap) (ht : h.traps h.cur = t :: ts)
    (hsp : h.m.get sp = t.sp) :
    context (Lib.Rv64.run h.m trapExitToSmode) = t.interrupted ∧ (Lib.Rv64.run h.m trapExitToSmode).mem = h.m.mem := by
  have hi₀ : Inv h₀ := fun i t ht => by
    rw [hnone i] at ht
    cases ht
  obtain ⟨hcontext, hmem⟩ := exit_spec (m := h.m)
  rw [hsp, hi₀.run hr h.cur t (by rw [ht]; exact List.mem_cons_self)] at hcontext
  exact ⟨hcontext, hmem⟩

end Run

/-- Two frames 272 bytes apart either way. -/
theorem framesApart_of_far {f g : Word} (h : 272 ≤ (f - g).toNat) (h' : 272 ≤ (g - f).toNat) : FramesApart f g := by
  intro j hj k hk
  have hword : ∀ (b : Word) (k : Nat), word b k = b + BitVec.ofNat 64 (8 * k) := fun b k =>
    congrArg (b + ·) (BitVec.ofInt_natCast 64 (8 * k))
  rw [hword, hword, Apart]
  bv_omega

section Sample

variable {ι : Type} [DecidableEq ι] {h : Kernel ι} {i : ι} {s : Word} {ts : ι → List Trap} {t : Trap} {rest : List Trap}

/-- The running thread, its sp, and the traps of all threads. -/
structure At (h : Kernel ι) (i : ι) (s : Word) (ts : ι → List Trap) : Prop where
  cur : h.cur = i
  stack : h.m.get sp = s
  traps : h.traps = ts

theorem At.trap (ha : At h i s ts) (back sepc sstatus scause : Word)
    (hstack : ∀ j, ∀ t ∈ ts j, FramesApart t.sp (frameOf s)) : ∃ h' t, Step back h h' ∧
      t.interrupted = context (atTrap h.m sepc sstatus scause) ∧ t.sp = frameOf s ∧
      At h' i (frameOf s) (Function.update ts i (t :: ts i)) := by
  obtain ⟨rfl, rfl, rfl⟩ := ha
  exact ⟨KernelTrap.trap back h sepc sstatus scause, ⟨context (atTrap h.m sepc sstatus scause), frameOf (h.m.get sp)⟩,
    .trap sepc sstatus scause hstack, rfl, rfl, rfl, trap_sp back h sepc sstatus scause, rfl⟩

/-- A switch to thread j, whose stack is at s'. -/
theorem At.swtch (ha : At h i s ts) (back : Word) (j : ι) (s' : Word) : ∃ h', Step back h h' ∧ At h' j s' ts :=
  ⟨{ h with m := h.m.set sp s', cur := j }, .swtch j _ fun _ _ _ _ _ => rfl, rfl,
    get_set_self (by decide : sp ≠ 0) s', ha.traps⟩

theorem At.sret {back : Word} {h₀ : Kernel ι} (ha : At h i s ts) (hi : Inv h₀)
    (hr : Relation.ReflTransGen (Step back) h₀ h) (ht : ts i = t :: rest) (hsp : s = t.sp) :
    ∃ h', Step back h h' ∧ At h' i (t.interrupted.x sp) (Function.update ts i rest) := by
  obtain ⟨rfl, rfl, rfl⟩ := ha
  refine ⟨_, .sret ht hsp, rfl, ?_, rfl⟩
  obtain ⟨hcontext, -⟩ := exit_spec (m := h.m)
  rw [hsp, hi.run hr h.cur t (by rw [ht]; exact List.mem_cons_self)] at hcontext
  rw [← hcontext]
  rfl

end Sample

/-- A different value in every register, and the stack at sp. -/
def numberedStack (stack : Word) : Machine := (numberedRegisters 0).set sp stack

/-- Thread false is interrupted, and its handler as well; in there the processor switches to thread
true, which is interrupted and goes on, and back. The inner handler returns, then the outer one. -/
theorem kernel_traps_transparent_nested : ∃ h : Kernel Bool,
    Relation.ReflTransGen (Step 0x80000040) ⟨numberedStack 0x80401000, false, fun _ => []⟩ h ∧ h.cur = false ∧
      context (run h.m trapExitToSmode) = context (atTrap (numberedStack 0x80401000) 0x80000100 0x120 5) := by
  obtain ⟨h₀, hh₀⟩ : ∃ h : Kernel Bool, h = ⟨numberedStack 0x80401000, false, fun _ => []⟩ := ⟨_, rfl⟩
  have hnone₀ : ∀ i, h₀.traps i = [] := by rw [hh₀]; exact fun _ => rfl
  have hi₀ : Inv h₀ := fun i t ht => by
    rw [hnone₀ i] at ht
    cases ht
  have ha₀ : At h₀ false 0x80401000 fun _ => [] := by
    rw [hh₀]
    exact ⟨rfl, rfl, rfl⟩
  -- the interrupt of thread false, and that of its handler
  obtain ⟨h₁, t₁, hs₁, hint₁, hsp₁, ha₁⟩ := ha₀.trap 0x80000040 0x80000100 0x120 5 fun j t ht => by cases ht
  have hto₁ : Relation.ReflTransGen (Step 0x80000040) h₀ h₁ := .single hs₁
  obtain ⟨h₂, t₂, hs₂, hint₂, hsp₂, ha₂⟩ := ha₁.trap 0x80000040 0x80000200 0x120 9 fun j t ht => by
    cases j with
    | false =>
        obtain rfl := List.mem_singleton.mp ht
        rw [hsp₁]
        exact framesApart_of_far (by decide) (by decide)
    | true => cases ht
  have hto₂ := hto₁.tail hs₂
  -- thread true is interrupted and goes on
  obtain ⟨h₃, hs₃, ha₃⟩ := ha₂.swtch 0x80000040 true 0x80501000
  have hto₃ := hto₂.tail hs₃
  obtain ⟨h₄, t₃, hs₄, -, hsp₃, ha₄⟩ := ha₃.trap 0x80000040 0x80000300 0x120 5 fun j t ht => by
    cases j with
    | false =>
        rcases List.mem_cons.mp ht with rfl | ht
        · rw [hsp₂]
          exact framesApart_of_far (by decide) (by decide)
        · obtain rfl := List.mem_singleton.mp ht
          rw [hsp₁]
          exact framesApart_of_far (by decide) (by decide)
    | true => cases ht
  have hto₄ := hto₃.tail hs₄
  obtain ⟨h₅, hs₅, ha₅⟩ := ha₄.sret hi₀ hto₄ (show _ = t₃ :: [] from rfl) hsp₃.symm
  have hto₅ := hto₄.tail hs₅
  -- both handlers of thread false return
  obtain ⟨h₆, hs₆, ha₆⟩ := ha₅.swtch 0x80000040 false t₂.sp
  have hto₆ := hto₅.tail hs₆
  obtain ⟨h₇, hs₇, ha₇⟩ := ha₆.sret hi₀ hto₆ (show _ = t₂ :: [t₁] from rfl) rfl
  have hto₇ := hto₆.tail hs₇
  have hsp₇ : h₇.m.get sp = t₁.sp := by
    rw [ha₇.stack, hint₂, hsp₁, ← ha₁.stack]
    rfl
  have ht₇ : h₇.traps h₇.cur = t₁ :: [] := by rw [ha₇.traps, ha₇.cur]; rfl
  obtain ⟨hcontext, -⟩ := kernel_traps_transparent 0x80000040 h₀ h₇ hnone₀ hto₇ t₁ [] ht₇ hsp₇
  rw [hint₁, hh₀] at hcontext
  exact ⟨h₇, hh₀ ▸ hto₇, ha₇.cur, hcontext⟩

end RiscvKernel.KernelTrap
