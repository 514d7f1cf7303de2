import RiscvKernel.Lib.Rv64Priv

namespace RiscvKernel.TimerTrap

open Lib.Rv64 hiding run step
open Lib.Rv64Priv

/-! The timer interrupt that machine mode provides to the kernel. -/

abbrev t0 : Reg := 5

def mmodeIntrHandler : List PInstr := [li t0 0x20, .mcsrs .mip t0, .base (.slli t0 t0 2), .mcsrc .mie t0]

def mmodeExcpHandler : List PInstr :=
  [li t0 0x20, .mcsrc .mip t0, .base (.slli t0 t0 2), .mcsrs .mie t0,
    .mcsrr t0 .mepc, .base (.addi t0 t0 4), .mcsrw .mepc t0]

def mmodeTrapDone : List PInstr := [.mcsrr t0 .mscratch]

/-- _mmode_trap_entry up to its mret; none is the panic of unexpected_mmode_trap. -/
def mmodeTrapEntry (w : Wide) : Option Wide :=
  let w := run w [.mcsrw .mscratch t0, .mcsrr t0 .mcause]
  if (w.core.get t0).msb then
    let w := run w [.base (.addi t0 t0 (-7)), .base (.slli t0 t0 1)]
    if w.core.get t0 ≠ 0 then none else some (run w (mmodeIntrHandler ++ mmodeTrapDone))
  else
    let w := run w [.base (.addi t0 t0 (-9))]
    if w.core.get t0 ≠ 0 then none else some (run w (mmodeExcpHandler ++ mmodeTrapDone))

/-- mcause of a machine timer interrupt, and of an ecall in supervisor mode. -/
def timerCause : Word := 0x8000000000000007

def ecallCause : Word := 9

abbrev stip : Nat := 5
abbrev mtie : Nat := 7

section Code

variable {w : Wide}

theorem twoPow_stip : BitVec.ofInt 64 0x20 = BitVec.twoPow 64 stip := by decide

theorem twoPow_mtie : BitVec.twoPow 64 stip <<< 2 = BitVec.twoPow 64 mtie := by decide

/-- The handler of an interrupt, with the old t0 in mscratch. -/
theorem intr_run (w : Wide) : run w (mmodeIntrHandler ++ mmodeTrapDone) =
    ⟨w.core.set t0 (w.mcsr .mscratch),
      Function.update (Function.update w.mcsr .mip (w.mcsr .mip ||| BitVec.twoPow 64 stip)) .mie
        (w.mcsr .mie &&& ~~~ BitVec.twoPow 64 mtie)⟩ := by
  have ht0 : t0 ≠ 0 := by decide
  have hmip : MCsr.mie ≠ MCsr.mip := by decide
  have hmscratch : MCsr.mscratch ≠ MCsr.mip := by decide
  have hmscratch' : MCsr.mscratch ≠ MCsr.mie := by decide
  simp only [mmodeIntrHandler, mmodeTrapDone, List.cons_append, List.nil_append, run, List.foldl_cons, List.foldl_nil, li,
    step, Lib.Rv64.step, get_zero, zero_add, Wide.set, Wide.setM, get_set_self ht0, twoPow_mtie, twoPow_stip, set_set,
    Function.update_of_ne hmip, Function.update_of_ne hmscratch, Function.update_of_ne hmscratch']

theorem excp_run (w : Wide) : run w (mmodeExcpHandler ++ mmodeTrapDone) =
    ⟨w.core.set t0 (w.mcsr .mscratch),
      Function.update (Function.update (Function.update w.mcsr .mip (w.mcsr .mip &&& ~~~ BitVec.twoPow 64 stip)) .mie
        (w.mcsr .mie ||| BitVec.twoPow 64 mtie)) .mepc (w.mcsr .mepc + 4)⟩ := by
  have ht0 : t0 ≠ 0 := by decide
  have hmip : MCsr.mie ≠ MCsr.mip := by decide
  have hmscratch : MCsr.mscratch ≠ MCsr.mip := by decide
  have hmscratch' : MCsr.mscratch ≠ MCsr.mie := by decide
  have hmscratch'' : MCsr.mscratch ≠ MCsr.mepc := by decide
  have hmepc : MCsr.mepc ≠ MCsr.mip := by decide
  have hmepc' : MCsr.mepc ≠ MCsr.mie := by decide
  have hfour : BitVec.ofInt 64 4 = 4 := by decide
  simp only [mmodeExcpHandler, mmodeTrapDone, List.cons_append, List.nil_append, run, List.foldl_cons, List.foldl_nil, li,
    step, Lib.Rv64.step, get_zero, zero_add, Wide.set, Wide.setM, get_set_self ht0, twoPow_mtie, twoPow_stip, set_set, hfour,
    Function.update_of_ne hmip, Function.update_of_ne hmscratch, Function.update_of_ne hmscratch',
    Function.update_of_ne hmscratch'', Function.update_of_ne hmepc, Function.update_of_ne hmepc']

/-- A timer interrupt: STIP set and MTIE cleared. -/
theorem mmodeTrapEntry_timer (h : w.mcsr .mcause = timerCause) : mmodeTrapEntry w = some ⟨w.core,
    Function.update (Function.update (Function.update w.mcsr .mscratch (w.core.get t0)) .mip
      (w.mcsr .mip ||| BitVec.twoPow 64 stip)) .mie (w.mcsr .mie &&& ~~~ BitVec.twoPow 64 mtie)⟩ := by
  have ht0 : t0 ≠ 0 := by decide
  have hmcause : MCsr.mcause ≠ MCsr.mscratch := by decide
  have hmip : MCsr.mip ≠ MCsr.mscratch := by decide
  have hmie : MCsr.mie ≠ MCsr.mscratch := by decide
  have hmsb : timerCause.msb = true := by decide
  have hseven : (timerCause + BitVec.ofInt 64 (-7)) <<< 1 = 0 := by decide
  simp only [mmodeTrapEntry, run, List.foldl_cons, List.foldl_nil, step, Lib.Rv64.step, Wide.set, Wide.setM, get_set_self ht0,
    Function.update_of_ne hmcause, h, hmsb, if_true, hseven, ne_eq, not_true, if_false]
  rw [← run, intr_run]
  simp only [set_set, Function.update_self, Function.update_of_ne hmip, Function.update_of_ne hmie, set_get ht0]

/-- An ecall from supervisor mode: STIP cleared, MTIE set and the ecall left behind. -/
theorem mmodeTrapEntry_ecall (h : w.mcsr .mcause = ecallCause) : mmodeTrapEntry w = some ⟨w.core,
    Function.update (Function.update (Function.update (Function.update w.mcsr .mscratch (w.core.get t0)) .mip
      (w.mcsr .mip &&& ~~~ BitVec.twoPow 64 stip)) .mie (w.mcsr .mie ||| BitVec.twoPow 64 mtie)) .mepc
        (w.mcsr .mepc + 4)⟩ := by
  have ht0 : t0 ≠ 0 := by decide
  have hmcause : MCsr.mcause ≠ MCsr.mscratch := by decide
  have hmip : MCsr.mip ≠ MCsr.mscratch := by decide
  have hmie : MCsr.mie ≠ MCsr.mscratch := by decide
  have hmepc : MCsr.mepc ≠ MCsr.mscratch := by decide
  have hmsb : ecallCause.msb = false := by decide
  have hnine : ecallCause + BitVec.ofInt 64 (-9) = 0 := by decide
  simp only [mmodeTrapEntry, run, List.foldl_cons, List.foldl_nil, step, Lib.Rv64.step, Wide.set, Wide.setM, get_set_self ht0,
    Function.update_of_ne hmcause, h, hmsb, Bool.false_eq_true, hnine, ne_eq, not_true, if_false]
  rw [← run, excp_run]
  simp only [set_set, Function.update_self, Function.update_of_ne hmip, Function.update_of_ne hmie,
    Function.update_of_ne hmepc, set_get ht0]

end Code

/-- What the hart does for a trap into machine mode. -/
def atMtrap (w : Wide) (mcause pc : Word) : Wide := (w.setM .mcause mcause).setM .mepc pc

def deliver (w : Wide) (mcause pc : Word) : Option Wide := mmodeTrapEntry (atMtrap w mcause pc)

/-- The last event comes first. -/
inductive Event
  | fire | arm
  deriving DecidableEq

/-- The hart in supervisor mode, the registers of the timer, and what the handler did. -/
structure Clock where
  hart : Wide
  mtime : Nat
  mtcmp : Nat
  hist : List Event

namespace Clock

def pending (c : Clock) : Bool := (c.hart.mcsr .mip).getLsbD stip

def armed (c : Clock) : Bool := (c.hart.mcsr .mie).getLsbD mtie

end Clock

inductive Step (c : Clock) : Clock → Prop
  /-- Supervisor mode and the devices do what they like, but neither writes STIP or MTIE. -/
  | smode (w : Wide) (hmip : (w.mcsr .mip).getLsbD stip = c.pending) (hmie : (w.mcsr .mie).getLsbD mtie = c.armed) :
      Step c { c with hart := w }
  | clock (t : Nat) (ht : c.mtime ≤ t) : Step c { c with mtime := t }
  | setMtcmp (v : Nat) : Step c { c with mtcmp := v }
  /-- enable_mmode_timer_intr. -/
  | ecall (pc : Word) {w : Wide} (hw : deliver c.hart ecallCause pc = some w) :
      Step c { c with hart := w, hist := .arm :: c.hist }
  | timer (pc : Word) {w : Wide} (hdue : c.mtcmp ≤ c.mtime) (harmed : c.armed = true)
      (hw : deliver c.hart timerCause pc = some w) :
      Step c { c with hart := w, hist := .fire :: c.hist }

section Run

variable {c c' c₀ : Clock} {w w' : Wide} {pc : Word}

/-- What a delivery leaves of the hart. -/
structure Delivered (w w' : Wide) (mepc : Word) (tip tie : Bool) : Prop where
  core : w'.core = w.core
  mepc : w'.mcsr .mepc = mepc
  mip : ∀ k < 64, (w'.mcsr .mip).getLsbD k = if k = stip then tip else (w.mcsr .mip).getLsbD k
  mie : ∀ k < 64, (w'.mcsr .mie).getLsbD k = if k = mtie then tie else (w.mcsr .mie).getLsbD k

theorem atMtrap_fields (w : Wide) (mcause pc : Word) : (atMtrap w mcause pc).core = w.core ∧
    (atMtrap w mcause pc).mcsr .mcause = mcause ∧ (atMtrap w mcause pc).mcsr .mepc = pc ∧
    (atMtrap w mcause pc).mcsr .mip = w.mcsr .mip ∧ (atMtrap w mcause pc).mcsr .mie = w.mcsr .mie := by
  refine ⟨rfl, ?_, mcsr_setM_self _ _ _, ?_, ?_⟩
  · rw [atMtrap, mcsr_setM_ne _ _ _ (by decide), mcsr_setM_self]
  · rw [atMtrap, mcsr_setM_ne _ _ _ (by decide), mcsr_setM_ne _ _ _ (by decide)]
  · rw [atMtrap, mcsr_setM_ne _ _ _ (by decide), mcsr_setM_ne _ _ _ (by decide)]

theorem deliver_timer (w : Wide) (pc : Word) :
    ∃ w', deliver w timerCause pc = some w' ∧ Delivered w w' pc true false := by
  obtain ⟨hcore, hcause, hmepc, hmip, hmie⟩ := atMtrap_fields w timerCause pc
  refine ⟨_, mmodeTrapEntry_timer hcause, hcore, ?_, fun k _ => ?_, fun k _ => ?_⟩
  · simp only [ne_eq, reduceCtorEq, not_false_eq_true, Function.update_of_ne, hmepc]
  · simp only [ne_eq, reduceCtorEq, not_false_eq_true, Function.update_of_ne, Function.update_self, hmip]
    rw [getLsbD_set_bit _ _ (by decide)]
    by_cases hk : k = stip <;> simp [hk]
  · simp only [Function.update_self, hmie]
    rw [getLsbD_clear_bit _ _ (by decide)]
    by_cases hk : k = mtie <;> simp [hk]

theorem deliver_ecall (w : Wide) (pc : Word) :
    ∃ w', deliver w ecallCause pc = some w' ∧ Delivered w w' (pc + 4) false true := by
  obtain ⟨hcore, hcause, hmepc, hmip, hmie⟩ := atMtrap_fields w ecallCause pc
  refine ⟨_, mmodeTrapEntry_ecall hcause, hcore, ?_, fun k _ => ?_, fun k _ => ?_⟩
  · simp only [Function.update_self, hmepc]
  · simp only [ne_eq, reduceCtorEq, not_false_eq_true, Function.update_of_ne, Function.update_self, hmip]
    rw [getLsbD_clear_bit _ _ (by decide)]
    by_cases hk : k = stip <;> simp [hk]
  · simp only [ne_eq, reduceCtorEq, not_false_eq_true, Function.update_of_ne, Function.update_self, hmie]
    rw [getLsbD_set_bit _ _ (by decide)]
    by_cases hk : k = mtie <;> simp [hk]

theorem Delivered.of_timer (hw : deliver w timerCause pc = some w') : Delivered w w' pc true false := by
  obtain ⟨v, hv, hd⟩ := deliver_timer w pc
  rw [hv] at hw
  exact Option.some.inj hw ▸ hd

theorem Delivered.of_ecall (hw : deliver w ecallCause pc = some w') : Delivered w w' (pc + 4) false true := by
  obtain ⟨v, hv, hd⟩ := deliver_ecall w pc
  rw [hv] at hw
  exact Option.some.inj hw ▸ hd

/-- The two bits say what the handler did last, and it never fires twice without being armed. -/
structure Inv (c : Clock) : Prop where
  pending : c.pending = decide (c.hist.head? = some .fire)
  armed : c.armed = decide (c.hist.head? = some .arm)
  once : ∀ later earlier, c.hist = later ++ .fire :: earlier → earlier.head? = some .arm

/-- The bits after a delivery. -/
theorem Delivered.bits {mepc : Word} {tip tie : Bool} (hd : Delivered w w' mepc tip tie) :
    (w'.mcsr .mip).getLsbD stip = tip ∧ (w'.mcsr .mie).getLsbD mtie = tie :=
  ⟨(hd.mip stip (by decide)).trans (if_pos rfl), (hd.mie mtie (by decide)).trans (if_pos rfl)⟩

theorem Inv.step (hi : Inv c) (hs : Step c c') : Inv c' := by
  cases hs with
  | smode w hmip hmie => exact ⟨hmip.trans hi.pending, hmie.trans hi.armed, hi.once⟩
  | clock t ht | setMtcmp v => exact ⟨hi.pending, hi.armed, hi.once⟩
  | ecall pc hw =>
      obtain ⟨hpending, harmed⟩ := (Delivered.of_ecall hw).bits
      refine ⟨hpending, harmed, fun later earlier hhist => ?_⟩
      cases later with
      | nil => cases hhist
      | cons e later => exact hi.once later earlier (List.cons.inj hhist).2
  | timer pc hdue harmed hw =>
      obtain ⟨hpending, harmed'⟩ := (Delivered.of_timer hw).bits
      refine ⟨hpending, harmed', fun later earlier hhist => ?_⟩
      cases later with
      | nil =>
          rw [← (List.cons.inj hhist).2]
          rw [hi.armed] at harmed
          exact of_decide_eq_true harmed
      | cons e later => exact hi.once later earlier (List.cons.inj hhist).2

theorem Inv.run (hi : Inv c₀) (hr : Relation.ReflTransGen Step c₀ c) : Inv c := by
  induction hr with
  | refl => exact hi
  | tail _ hs ih => exact ih.step hs

/-- In every run from both bits clear: STIP is set from a timer interrupt to the next ecall and MTIE
from an ecall to the next timer interrupt, there is one interrupt for each ecall at most, an armed
timer that is due fires, and both traps change neither a register of the hart nor another bit. -/
theorem timer_virtualized (c₀ c : Clock) (hpending : c₀.pending = false) (harmed : c₀.armed = false)
    (hhist : c₀.hist = []) (hr : Relation.ReflTransGen Step c₀ c) :
    (c.pending = true ↔ c.hist.head? = some .fire) ∧ (c.armed = true ↔ c.hist.head? = some .arm) ∧
    (∀ later earlier, c.hist = later ++ .fire :: earlier → earlier.head? = some .arm) ∧
    (c.armed = true → c.mtcmp ≤ c.mtime → ∀ pc, ∃ w, Step c { c with hart := w, hist := .fire :: c.hist } ∧
      Delivered c.hart w pc true false) ∧
    ∀ pc, ∃ w, Step c { c with hart := w, hist := .arm :: c.hist } ∧ Delivered c.hart w (pc + 4) false true := by
  have hi : Inv c := by
    refine Inv.run ⟨?_, ?_, fun later earlier he => ?_⟩ hr
    · rw [hpending, hhist]
      rfl
    · rw [harmed, hhist]
      rfl
    · rw [hhist] at he
      simp at he
  refine ⟨?_, ?_, hi.once, fun harmed hdue pc => ?_, fun pc => ?_⟩
  · rw [hi.pending, decide_eq_true_iff]
  · rw [hi.armed, decide_eq_true_iff]
  · obtain ⟨w, hw, hd⟩ := deliver_timer c.hart pc
    exact ⟨w, .timer pc hdue harmed hw, hd⟩
  · obtain ⟨w, hw, hd⟩ := deliver_ecall c.hart pc
    exact ⟨w, .ecall pc hw, hd⟩

/-- timer_init and the first tick. -/
theorem timer_virtualized_firstTick :
    ∃ c : Clock, c.hist = [.fire, .arm] ∧ c.pending = true ∧ c.armed = false := by
  obtain ⟨w₁, hw₁, hd₁⟩ := deliver_ecall ⟨⟨fun _ => 0, fun _ => 0, fun _ => 0⟩, fun _ => 0⟩ 0x80000100
  obtain ⟨w₂, hw₂, -⟩ := deliver_timer w₁ 0x80000104
  have hstart : Relation.ReflTransGen Step ⟨⟨⟨fun _ => 0, fun _ => 0, fun _ => 0⟩, fun _ => 0⟩, 0, 200000, []⟩
      ⟨w₁, 200000, 200000, [.arm]⟩ :=
    .tail (.single (.ecall 0x80000100 hw₁)) (.clock 200000 (Nat.zero_le _))
  have hr : Relation.ReflTransGen Step ⟨⟨⟨fun _ => 0, fun _ => 0, fun _ => 0⟩, fun _ => 0⟩, 0, 200000, []⟩
      ⟨w₂, 200000, 200000, [.fire, .arm]⟩ :=
    hstart.tail (.timer 0x80000104 (Nat.le_refl _) hd₁.bits.2 hw₂)
  obtain ⟨hpending, harmed, -⟩ := timer_virtualized _ _ rfl rfl rfl hr
  refine ⟨_, rfl, hpending.mpr rfl, Bool.eq_false_iff.mpr fun h => ?_⟩
  cases harmed.mp h

end Run

end RiscvKernel.TimerTrap
