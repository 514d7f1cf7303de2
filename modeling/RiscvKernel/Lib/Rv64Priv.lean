import RiscvKernel.Lib.Rv64

/-! Bits of control registers, and the control registers of machine mode. -/

namespace RiscvKernel.Lib.Rv64Priv

open Lib.Rv64

inductive MCsr
  | mscratch | mcause | mepc | mip | mie
  deriving DecidableEq

structure Wide where
  core : Machine
  mcsr : MCsr → Word

namespace Wide

def set (w : Wide) (r : Reg) (v : Word) : Wide := { w with core := w.core.set r v }

def setM (w : Wide) (c : MCsr) (v : Word) : Wide := { w with mcsr := Function.update w.mcsr c v }

end Wide

inductive PInstr
  | base (i : Instr)
  | csrs (c : Csr) (rs : Reg)
  | csrc (c : Csr) (rs : Reg)
  | mcsrr (rd : Reg) (c : MCsr)
  | mcsrw (c : MCsr) (rs : Reg)
  | mcsrs (c : MCsr) (rs : Reg)
  | mcsrc (c : MCsr) (rs : Reg)
  deriving DecidableEq

/-- The pseudoinstruction li of a small constant. -/
def li (rd : Reg) (imm : Int) : PInstr := .base (.addi rd 0 imm)

def step (w : Wide) : PInstr → Wide
  | .base i => { w with core := Rv64.step w.core i }
  | .csrs c rs => { w with core := w.core.setCsr c (w.core.csr c ||| w.core.get rs) }
  | .csrc c rs => { w with core := w.core.setCsr c (w.core.csr c &&& ~~~ w.core.get rs) }
  | .mcsrr rd c => w.set rd (w.mcsr c)
  | .mcsrw c rs => w.setM c (w.core.get rs)
  | .mcsrs c rs => w.setM c (w.mcsr c ||| w.core.get rs)
  | .mcsrc c rs => w.setM c (w.mcsr c &&& ~~~ w.core.get rs)

def run (w : Wide) (code : List PInstr) : Wide := code.foldl step w

section Fields

variable (w : Wide) (r : Reg) (c : MCsr) (v : Word)

@[simp] theorem core_setM : (w.setM c v).core = w.core := rfl
@[simp] theorem mcsr_set : (w.set r v).mcsr = w.mcsr := rfl
@[simp] theorem core_set : (w.set r v).core = w.core.set r v := rfl

@[simp] theorem mcsr_setM_self : (w.setM c v).mcsr c = v := by
  rw [Wide.setM]
  exact Function.update_self c v w.mcsr

theorem mcsr_setM_ne {c' : MCsr} (h : c' ≠ c) : (w.setM c v).mcsr c' = w.mcsr c' := by
  rw [Wide.setM]
  exact Function.update_of_ne h v w.mcsr

end Fields

theorem set_get {m : Machine} {r : Reg} (h : r ≠ 0) : m.set r (m.get r) = m := by
  rw [Machine.set, Machine.get, if_neg h, Function.update_eq_self]

theorem set_set (m : Machine) (r : Reg) (u v : Word) : (m.set r u).set r v = m.set r v := by
  rw [Machine.set, Machine.set, Function.update_idem]
  rfl

theorem get_zero (m : Machine) : m.get 0 = 0 := if_pos rfl

section Bits

variable (v : Word) (n : Nat)

/-- csrs with the mask of one bit. -/
theorem getLsbD_set_bit (h : n < 64) (k : Nat) :
    (v ||| BitVec.twoPow 64 n).getLsbD k = (v.getLsbD k || decide (k = n)) := by
  rw [BitVec.getLsbD_or, BitVec.getLsbD_twoPow]
  by_cases hk : n = k
  · subst hk
    simp [h]
  · simp [hk, Ne.symm hk]

/-- csrc with the mask of one bit. -/
theorem getLsbD_clear_bit (h : n < 64) (k : Nat) :
    (v &&& ~~~ BitVec.twoPow 64 n).getLsbD k = (v.getLsbD k && !decide (k = n)) := by
  rw [BitVec.getLsbD_and, BitVec.getLsbD_not, BitVec.getLsbD_twoPow]
  by_cases hk : n = k
  · subst hk
    simp [h]
  · by_cases h64 : k < 64
    · simp [hk, Ne.symm hk, h64]
    · rw [BitVec.getLsbD_of_ge v k (by omega)]
      simp

def setBit (b : Bool) : Word := if b then v ||| BitVec.twoPow 64 n else v &&& ~~~ BitVec.twoPow 64 n

theorem getLsbD_setBit (b : Bool) (h : n < 64) (k : Nat) :
    (setBit v n b).getLsbD k = if k = n then b else v.getLsbD k := by
  cases b with
  | false =>
      rw [setBit, if_neg Bool.false_ne_true, getLsbD_clear_bit v n h]
      by_cases hk : k = n <;> simp [hk]
  | true =>
      rw [setBit, if_pos rfl, getLsbD_set_bit v n h]
      by_cases hk : k = n <;> simp [hk]

end Bits

abbrev bitSie : Nat := 1
abbrev bitSpie : Nat := 5
abbrev bitSpp : Nat := 8

/-- sstatus behind a trap from user mode. -/
def trapStatus (s : Word) : Word := setBit (setBit (setBit s bitSpie (s.getLsbD bitSie)) bitSie false) bitSpp false

/-- sstatus behind sret. -/
def sretStatus (s : Word) : Word := setBit (setBit (setBit s bitSie (s.getLsbD bitSpie)) bitSpie true) bitSpp false

/-- sret: whether user mode is next, the pc, and the machine. -/
def sret (m : Machine) : Bool × Word × Machine :=
  (!(m.csr .sstatus).getLsbD bitSpp, m.csr .sepc, m.setCsr .sstatus (sretStatus (m.csr .sstatus)))

theorem trapStatus_bits (s : Word) :
    (trapStatus s).getLsbD bitSpp = false ∧ (trapStatus s).getLsbD bitSpie = s.getLsbD bitSie := by
  have h := getLsbD_setBit
  constructor
  · rw [trapStatus, h _ _ _ (by decide), if_pos rfl]
  · rw [trapStatus, h _ _ _ (by decide), if_neg (by decide), h _ _ _ (by decide), if_neg (by decide),
      h _ _ _ (by decide), if_pos rfl]

theorem sretStatus_bits (s : Word) :
    (sretStatus s).getLsbD bitSpp = false ∧ (sretStatus s).getLsbD bitSie = s.getLsbD bitSpie := by
  have h := getLsbD_setBit
  constructor
  · rw [sretStatus, h _ _ _ (by decide), if_pos rfl]
  · rw [sretStatus, h _ _ _ (by decide), if_neg (by decide), h _ _ _ (by decide), if_neg (by decide),
      h _ _ _ (by decide), if_pos rfl]

/-- Code that does not store. -/
def Storeless : Instr → Bool
  | .sd _ _ _ => false
  | _ => true

theorem run_mem {m : Machine} {code : List Instr} (h : code.all Storeless = true) : (Rv64.run m code).mem = m.mem := by
  induction code generalizing m with
  | nil => rfl
  | cons i code ih =>
      rw [List.all_cons, Bool.and_eq_true] at h
      refine (ih h.2).trans ?_
      cases i with
      | sd rt imm rs => cases h.1
      | _ => rfl

end RiscvKernel.Lib.Rv64Priv
